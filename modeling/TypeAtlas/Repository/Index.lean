import TypeAtlas.Config.Basic
import TypeAtlas.Extraction.Cached
import TypeAtlas.Reference.Groups
import TypeAtlas.Repository.Scan

/-! # Indexing

Extracts every declaration of a repository into a cache, file by file in the order of their paths.
Besides the entries this leaves a table for every file, the index of the repository and a summary.
Entries and tables that the run has neither read nor written are removed.
-/

namespace TypeAtlas

/-- What is collected while files are indexed. -/
structure IndexingState where
  reports : List Diagnostic := []
  files : List (String × IndexedFile) := []
  references : List (String × List String) := []
  codes : List String := []
  failed : List String := []
  liveEntries : List Path := []
  liveTables : List Path := []
  symbolCount : Nat := 0

namespace Indexing

def origin : String := "pipeline.index"

/-- What stays the same in a run. -/
structure Setting where
  digester : Digester
  root : Path
  cache : ContentCache
  config : Config
  /-- The readings that each extraction takes. -/
  clock : Clock

variable (s : Setting)

def Setting.request (file symbol : String) : ExtractionRequest where
  file
  symbol
  vocabulary := s.config.vocabulary
  algorithm := s.config.hashAlgorithm
  maxNodes := s.config.maxNodes
  timeout := s.config.timeoutSeconds.map .float
  clock := s.clock

/-- The declarations that names used in a file stand for, as keys of the reference graph. -/
def targets (file : String) (names : List String) : Work (List String) := do
  let found ← names.mapM fun name => Work.lookup s.root ⟨file, name⟩
  return found.filterMap fun d => d.map fun d => symbolKey d.file d.name

def symbol (file fingerprint : String) (st : IndexingState) (name : String) :
    Work (IndexingState × SymbolSummary) := do
  let r ← (s.request file name).extractSource s.digester s.root (some s.cache)
  let node := symbolKey file name
  let entry ← s.cache.entryPath s.digester fingerprint file name
  let dependencies := match r.value with
    | some e => e.graph.dependencies.mergeSort fun a b => decide (a ≤ b)
    | none => []
  let targets ← targets s file dependencies
  let hash := if r.ok then r.value.bind Extraction.fingerprint else none
  let st := { st with
    reports := st.reports ++ r.diagnostics
    codes := st.codes ++ r.codes
    failed := if r.ok then st.failed else st.failed ++ [node]
    liveEntries := if r.ok && r.value.isSome then entry :: st.liveEntries else st.liveEntries
    references := st.references ++ [(node, targets)]
    symbolCount := st.symbolCount + 1 }
  let summary : SymbolSummary :=
    { name, hash, ok := r.ok, dependencies, codes := Vocabulary.sortedNames r.codes }
  return (st, summary)

/-- Indexes the declarations of a file that the file itself makes. -/
def symbols (file fingerprint : String) (st : IndexingState) :
    List String → Work (IndexingState × List SymbolSummary)
  | [] => return (st, [])
  | name :: names => do
    match ← Work.lookup s.root ⟨file, name⟩ with
    | none => symbols file fingerprint st names
    | some d =>
      if d.file != file then symbols file fingerprint st names
      else
        let (st, summary) ← symbol s file fingerprint st name
        let (st, summaries) ← symbols file fingerprint st names
        return (st, summary :: summaries)

def file (st : IndexingState) (path : Path) : Work IndexingState := do
  let file := path.toString
  let content := (← get).volume.readOutcome (s.root / path)
  let st := { st with reports := st.reports ++ content.diagnostics }
  match content.value with
  | none => return { st with failed := st.failed ++ [file] }
  | some content =>
    let fingerprint ← Attempt.ofWrite
      (fingerprintKey s.digester s.cache.algorithm s.config.vocabulary content)
    let (st, summaries) ←
      symbols s file fingerprint st (← Work.declaredNames s.root file)
    let stored ← s.cache.storeTable s.digester
      { filePath := file, fileFingerprint := fingerprint, symbols := summaries }
    let table ← s.cache.tablePath s.digester file
    let indexed : IndexedFile :=
      { fileFingerprint := fingerprint, symbols := summaries.map fun x => (x.name, x.hash) }
    Work.say .info origin ("Indexed " ++ file ++ " (" ++ toString summaries.length ++ " symbols)")
    return { st with
      reports := st.reports ++ stored.diagnostics
      liveTables := table :: st.liveTables
      files := st.files ++ [(file, indexed)] }

/-- Removes the documents of a directory that are not live. -/
def prune (directory : Path) (live : List Path) : Work Unit := do
  let names := (← get).volume.list directory
  (names.filter (·.endsWith ".json")).forM fun name => do
    let path := directory.child name
    if !live.contains path then
      Work.say .debug origin ("Pruning stale cache entry " ++ name)
      Work.mustAct (FileAction.discard path)

/-- How often each code occurs, in the order of the codes. -/
def countCodes (codes : List String) : List (String × Int) :=
  (Vocabulary.sortedNames codes).map fun c => (c, codes.count c)

def manifest (st : IndexingState) : Manifest where
  algorithm := s.config.hashAlgorithm
  fileCount := st.files.length
  symbolCount := st.symbolCount
  failedSymbols := st.failed.mergeSort fun a b => decide (a ≤ b)
  diagnostics := countCodes st.codes
  recursiveGroups := (ReferenceGraph.ofReferences st.references).recursiveGroups

def index (st : IndexingState) : RepositoryIndex :=
  { algorithm := s.config.hashAlgorithm, files := st.files }

/-- What a scan for a cache in a directory leaves out: the directory at the top of the repository
that the cache is in. -/
def skippedDirectory (v : Volume) (root out : Path) : String :=
  match Volume.below? (v.resolve root).segments (v.resolve out).segments with
  | some (top :: _) => top
  | _ => ""

def Setting.scan (v : Volume) : ScanRequest where
  skipped := skippedDirectory v s.root s.cache.root
  included := s.config.included
  excluded := s.config.excluded
  nested := s.config.nestedGitignore

/-- A run over the files of the repository, once the directories of the cache are there. -/
def run : Work (Outcome Manifest) := do
  let v := (← get).volume
  let paths ← (s.scan v).scan v s.root
  let st ← paths.foldlM (file s) {}
  prune (Cache.directory s.cache.root .ir) st.liveEntries
  prune (Cache.directory s.cache.root .symbols) st.liveTables
  let m := manifest s st
  let indexed ← Cache.writeDocument (s.cache.root / Cache.indexFile) (index s st).toDatum
  let summed ← Cache.writeDocument (s.cache.root / Cache.manifestFile) m.toDatum
  Work.say .info origin ("Indexed " ++ toString st.symbolCount ++ " symbols in " ++
    toString st.files.length ++ " files (" ++ toString st.failed.length ++ " failed)")
  return ⟨some m, st.reports ++ indexed.diagnostics ++ summed.diagnostics⟩

end Indexing

/-- Indexes the repository at a root into a cache directory. -/
def indexRepository (d : Digester) (root out : Path) (config : Config) (clock : Clock := .still) :
    Work (Outcome Manifest) :=
  Work.withFreshSources do
    let layout ← Cache.ensureLayout out
    if !layout.ok then return layout.withValue none
    let a ← Algorithm.named config.hashAlgorithm
    Indexing.run { digester := d, root, cache := ⟨out, a⟩, config, clock }

/-- Indexes a repository with its own configuration into the cache that this names, each unless it
is given. -/
def indexRepositoryAsConfigured (d : Digester) (root : Path) (out : Option Path)
    (config : Option Config) (clock : Clock := .still) : Work (Outcome Manifest) := do
  let v := (← get).volume
  let config ← match config with
    | some c => pure c
    | none => liftM (Config.load v root)
  let out ← match out with
    | some p => pure p
    | none => liftM (Config.resolveCacheDir v root config.cacheDir)
  indexRepository d root out config clock

end TypeAtlas
