import TypeAtlas.Cache.Fingerprint
import TypeAtlas.Cache.Store
import TypeAtlas.Declaration.Files
import TypeAtlas.Extraction.Pass

/-! # Extraction through a cache

An extraction looks for a fresh entry first. An entry is fresh when all files that it was built
from still have the recorded content; then its graph and its reports are taken over. Otherwise a
pass is made, and filed if nothing in it is an error. The algorithm of the request, by which graphs
and sources are hashed, need not be that of the cache, by which entries are named and sealed.
-/

namespace TypeAtlas

namespace CacheEntry

/-- Whether the files that an entry was built from are as they were. -/
def isFresh (d : Digester) (a : Algorithm) (v : Volume) (root : Path) (e : CacheEntry) : Bool :=
  e.sources.all fun file digest =>
    match v.read (root / Path.ofString file) with
    | .ok content => d.bytes a content == digest
    | .error _ => false

end CacheEntry

namespace Graph

/-- The files in which a graph has nodes, its own file among them. -/
def files (g : Graph) : List String :=
  (Std.ExtTreeSet.ofList (g.filePath ::
    g.nodes.toList.filterMap fun n => n.2.location.map SourceLocation.file)).toList

/-- The content digests of the files of a graph, if all of them can be read. -/
def sourceDigests (d : Digester) (a : Algorithm) (v : Volume) (root : Path) (g : Graph) :
    Option (Std.ExtTreeMap String String) := do
  let digests ← g.files.mapM fun file =>
    match v.read (root / Path.ofString file) with
    | .ok content => some (file, d.bytes a content)
    | .error _ => none
  return Std.ExtTreeMap.ofList digests

end Graph

namespace ExtractionRequest

def origin : String := "pipeline.extract"

def title (r : ExtractionRequest) : String := r.file ++ ":" ++ r.symbol

def stageLine (r : ExtractionRequest) : PassStage → LogLine
  | .resolved n =>
    ⟨.debug, "resolve.resolver", "Resolved " ++ r.title ++ " into " ++ toString n ++ " raw nodes"⟩
  | .normalized raw canonical =>
    ⟨.debug, "normalize.normalizer", "Normalized " ++ r.symbol ++ ": " ++ toString raw ++
      " raw nodes -> " ++ toString canonical ++ " canonical nodes"⟩
  | .refused =>
    ⟨.debug, "canonical.hash", "Refusing to hash " ++ r.symbol ++ ": unstable input"⟩

def ofEntry (r : ExtractionRequest) (before : List Diagnostic) (e : CacheEntry) :
    Attempt (Outcome Extraction) := do
  let replayed ← e.diagnostics.mapM fun fields =>
    match Diagnostic.ofFields fields with
    | .ok d => .ok d
    | .error name => .error (.missingField name)
  let extraction : Extraction := {
    filePath := r.file, symbol := r.symbol, graph := e.graph, fingerprint := some e.hash
    cached := true }
  return ⟨some extraction, before ++ replayed⟩

structure Filing where
  cache : ContentCache
  key : String
  algorithm : Algorithm

def fileAway (d : Digester) (root : Path) (f : Filing) (r : ExtractionRequest)
    (p : ExtractionPass) : Work (List Diagnostic) := do
  match p.raw.sourceDigests d f.algorithm (← get).volume root, p.extraction.fingerprint with
  | some sources, some hash =>
    let stored ← f.cache.store d f.key {
      symbol := r.symbol, filePath := r.file, hash, graph := p.extraction.graph, sources
      diagnostics := p.diagnostics.map Diagnostic.toFields }
    return stored.diagnostics
  | _, _ => return []

/-- Extracts by a pass, and files the result if there is a cache. The names that were looked up are
passed on to `observe`. -/
def extractAnew (d : Digester) (root : Path) (source : DeclarationSource)
    (observe : List Resolution.Event → Work Unit) (filing : Option Filing)
    (before : List Diagnostic) (r : ExtractionRequest) : Work (Outcome Extraction) := do
  let (result, trace) := r.pass d source
  observe trace.events
  Work.log (trace.stages.map r.stageLine)
  match ← result with
  | .timedOut report =>
    Work.say .info origin ("Extraction of " ++ r.title ++ " timed out")
    return ⟨none, [report]⟩
  | .complete p =>
    let reports := before ++ p.diagnostics
    let more ← match filing with
      | some f => if reports.any Diagnostic.isError then pure [] else fileAway d root f r p
      | none => pure []
    let outcome : Outcome Extraction := ⟨some p.extraction, reports ++ more⟩
    Work.say .debug origin
      ("Extracted " ++ r.title ++ " (" ++ toString outcome.diagnostics.length ++ " diagnostics)")
    return outcome

def extractCached (d : Digester) (root : Path) (source : DeclarationSource)
    (observe : List Resolution.Event → Work Unit) (c : ContentCache) (r : ExtractionRequest) :
    Work (Outcome Extraction) := do
  let content := (← get).volume.readOutcome (root / Path.ofString r.file)
  match content.value with
  | none => return content.withValue none
  | some content =>
    let a ← Algorithm.named r.algorithm
    let key ← Attempt.ofWrite (fingerprintKey d a r.vocabulary content)
    let hit ← c.lookup d key r.file r.symbol
    match hit.value with
    | some e =>
      if e.isFresh d a (← get).volume root then
        Work.say .info origin ("Cache hit for " ++ r.title)
        r.ofEntry hit.diagnostics e
      else r.extractAnew d root source observe (some ⟨c, key, a⟩) hit.diagnostics
    | none => r.extractAnew d root source observe (some ⟨c, key, a⟩) hit.diagnostics

def extractSource (d : Digester) (root : Path) (cache : Option ContentCache)
    (r : ExtractionRequest) : Work (Outcome Extraction) := do
  let t := (← get).sources root
  match cache with
  | some c => r.extractCached d root t.source (Work.observe t) c
  | none => r.extractAnew d root t.source (Work.observe t) none []

end ExtractionRequest

end TypeAtlas
