import TypeAtlas.Extraction.Cached
import TypeAtlas.Proofs.Cache.Entry
import TypeAtlas.Proofs.Cache.Stored
import TypeAtlas.Proofs.Extraction.Total
import TypeAtlas.Proofs.Graph.Covered
import TypeAtlas.Proofs.Normal.Recordable

/-! # Extractions that are filed

An extraction through a cache changes at most one file, and only if no report of it is an error. That
file holds an entry for the pass that was made: it can be read back, and its graph hashes as it says.
It has no unknown type then, and its reports are no errors. An extraction that fails changes no file.
-/

namespace TypeAtlas

open Work

variable {d : Digester} {a b : Algorithm} {source : DeclarationSource} {r : ExtractionRequest}
  {p : ExtractionPass} {root directory : Path} {w w' : Workspace} {content : ByteArray}
  {e : CacheEntry}

namespace ExtractionRequest

/-- The entry that is filed for a pass. -/
def entry (r : ExtractionRequest) (p : ExtractionPass) (hash : String)
    (sources : Std.ExtTreeMap String String) : CacheEntry where
  symbol := r.symbol
  filePath := r.file
  hash := hash
  graph := p.extraction.graph
  sources := sources
  diagnostics := p.diagnostics.map Diagnostic.toFields

/-- The bytes are those of the entry for a complete pass without errors, sealed with the algorithm of a
cache. -/
structure Files (d : Digester) (source : DeclarationSource) (r : ExtractionRequest)
    (b : Algorithm) (p : ExtractionPass) (e : CacheEntry) (content : ByteArray) : Prop where
  complete : (r.pass d source).1 = .ok (.complete p)
  clean : p.diagnostics.any Diagnostic.isError = false
  hash : p.extraction.fingerprint = some e.hash
  entry : ∃ sources, e = r.entry p e.hash sources
  holds : Cache.Holds d b e.toDatum content

/-! ## Steps -/

section Aside

variable {γ : Type} {view : Workspace → γ} {f : Filing} {c : ContentCache}
  {observe : List Resolution.Event → Work Unit}

theorem keeps_fileAway (h : Cache.Aside view) : Keeps view (r.fileAway d root f p) := by
  refine keeps_get.bind fun w => ?_
  split
  · exact (ContentCache.keeps_store h).bind fun _ => keeps_pure _
  · exact keeps_pure _

theorem keeps_extractAnew (h : Cache.Aside view) (hobserve : ∀ events, Keeps view (observe events))
    (before : List Diagnostic) : Keeps view (r.extractAnew d root source observe (some f) before) := by
  unfold extractAnew
  refine (hobserve _).bind fun _ => (h.log _).bind fun _ => (keeps_lift _).bind fun ending => ?_
  cases ending with
  | timedOut report => exact (h.log _).bind fun _ => keeps_pure _
  | complete p =>
    dsimp only
    split
    · exact (keeps_pure _).bind fun _ => (h.log _).bind fun _ => keeps_pure _
    · exact (keeps_fileAway h).bind fun _ => (h.log _).bind fun _ => keeps_pure _

theorem keeps_extractCached (h : Cache.Aside view) (hobserve : ∀ events, Keeps view (observe events)) :
    Keeps view (r.extractCached d root source observe c) := by
  unfold extractCached
  refine keeps_get.bind fun w => ?_
  dsimp only
  split
  · exact keeps_pure _
  refine (keeps_lift _).bind fun a => (keeps_lift _).bind fun key =>
    (ContentCache.keeps_lookup_of _ h.log).bind fun hit => ?_
  split
  · refine keeps_get.bind fun w => ?_
    split
    · exact (h.log _).bind fun _ => keeps_lift _
    · exact keeps_extractAnew h hobserve _
  · exact keeps_extractAnew h hobserve _

end Aside

theorem runs_fileAway {f : Filing} {q : Attempt (List Diagnostic)} (hw : w.volume.Removable)
    (h : Runs (r.fileAway d root f p) w q w') :
    files w' = files w ∨ (q = .ok [] ∧ ∃ hash sources content, p.extraction.fingerprint = some hash ∧
      Cache.Holds d f.cache.algorithm (r.entry p hash sources).toDatum content ∧
        Cache.Replaced (files w) (files w') content) := by
  rw [fileAway, runs_get_bind] at h
  split at h
  · next sources hash _ hhash =>
    rw [runs_bind] at h
    rcases h with ⟨stored, w₁, hstored, h⟩ | ⟨e, he, -⟩
    · obtain ⟨rfl, rfl⟩ := runs_pure.1 h
      rcases ContentCache.runs_store hw hstored with hkept | ⟨hout, content, hholds, hreplaced⟩
      · exact .inl hkept
      · obtain rfl := Except.ok.inj hout
        exact .inr ⟨rfl, hash, sources, content, hhash, hholds, hreplaced⟩
    · rcases ContentCache.runs_store hw he with hkept | ⟨hout, -⟩
      · exact .inl hkept
      · cases hout
  · exact .inl (congrArg files (runs_pure.1 h).2)

/-- What an extraction comes to when its result is filed. -/
def Publishes (d : Digester) (source : DeclarationSource) (b : Algorithm) (r : ExtractionRequest)
    (fs fs' : Location → Option ByteArray) (q : Attempt (Outcome Extraction)) : Prop :=
  (∃ o, q = .ok o ∧ o.ok) ∧ ∃ p e content, r.Files d source b p e content ∧
    Cache.Replaced fs fs' content

theorem runs_extractAnew {observe : List Resolution.Event → Work Unit} {f : Filing}
    {before : List Diagnostic} {q : Attempt (Outcome Extraction)} (hw : w.volume.Removable)
    (hobserve : ∀ events, Keeps Workspace.volume (observe events))
    (h : Runs (r.extractAnew d root source observe (some f) before) w q w') :
    files w' = files w ∨ Publishes d source f.cache.algorithm r (files w) (files w') q := by
  unfold extractAnew at h
  cases hpass : r.pass d source with
  | mk result trace =>
    rw [hpass] at h
    dsimp only at h
    rcases (hobserve _).split h with hkept | ⟨_, w₁, -, hkept, h⟩
    · exact .inl (congrArg Volume.file? hkept)
    have hfiles : files w₁ = files w := congrArg Volume.file? hkept
    rw [← hfiles]
    rw [← hkept] at hw
    rw [log, runs_modify_bind] at h
    rcases (keeps_lift _).split h with hkept | ⟨ending, w₂, hending, -, h⟩
    · exact .inl hkept
    · obtain ⟨hresult, rfl⟩ := runs_lift.1 hending
      cases ending with
      | timedOut report => exact .inl (runs_say_pure h).2
      | complete p =>
        dsimp only at h
        split at h
        · exact .inl (runs_say_pure h).2
        · next hclean =>
          rw [Bool.not_eq_true] at hclean
          rcases runs_bind.1 h with ⟨more, w₄, hmore, h⟩ | ⟨e, hmore, -⟩
          · obtain ⟨rfl, hkept⟩ := runs_say_pure h
            rcases runs_fileAway (by exact hw) hmore with
              hsame | ⟨hout, hash, sources, content, hhash, hholds, hreplaced⟩
            · exact .inl (hkept.trans hsame)
            · obtain rfl := Except.ok.inj hout
              refine .inr ⟨⟨_, rfl, ?_⟩, p, r.entry p hash sources, content, ?_, ?_⟩
              · simp [Outcome.ok, hclean]
              · rw [List.any_append, Bool.or_eq_false_iff] at hclean
                exact ⟨by rw [hpass, ← hresult], hclean.2, hhash, ⟨sources, rfl⟩, hholds⟩
              · exact hkept ▸ hreplaced
          · rcases runs_fileAway (by exact hw) hmore with hsame | ⟨hout, -⟩
            · exact .inl hsame
            · cases hout

/-- An extraction through a cache leaves every file as it was, or files the entry of its pass and
reports no error. -/
theorem runs_extractCached {observe : List Resolution.Event → Work Unit} {c : ContentCache}
    {q : Attempt (Outcome Extraction)} (hw : w.volume.Removable)
    (hobserve : ∀ events, Keeps Workspace.volume (observe events))
    (h : Runs (r.extractCached d root source observe c) w q w') :
    files w' = files w ∨ Publishes d source c.algorithm r (files w) (files w') q := by
  rw [extractCached, runs_get_bind] at h
  dsimp only at h
  split at h
  · exact .inl (congrArg files (runs_pure.1 h).2)
  -- Nothing is written before the look-up is over.
  have hlookup (key : String) : Keeps Workspace.volume (c.lookup d key r.file r.symbol) :=
    ContentCache.keeps_lookup_of _ fun _ => keeps_modify fun _ => rfl
  rcases (keeps_lift _ : Keeps Workspace.volume _).split h with hkept | ⟨a, w₁, -, hv₁, h⟩
  · exact .inl (congrArg Volume.file? hkept)
  rcases (keeps_lift _ : Keeps Workspace.volume _).split h with hkept | ⟨key, w₂, -, hv₂, h⟩
  · exact .inl (congrArg Volume.file? (hkept.trans hv₁))
  rcases (hlookup key).split h with hkept | ⟨hit, w₃, -, hv₃, h⟩
  · exact .inl (congrArg Volume.file? (hkept.trans (hv₂.trans hv₁)))
  have hv := hv₃.trans (hv₂.trans hv₁)
  have hfiles : files w₃ = files w := congrArg Volume.file? hv
  rw [← hfiles]
  rw [← hv] at hw
  split at h
  · next e _ =>
    rw [runs_get_bind] at h
    split at h
    · exact .inl (((keeps_say _ _ _).bind fun _ => keeps_lift _) _ _ _ h)
    · exact runs_extractAnew hw hobserve h
  · exact runs_extractAnew hw hobserve h

end ExtractionRequest

/-! ## What is filed -/

theorem Datum.Plain.distinct {v : Datum} (h : v.Plain) : v.Distinct := by
  rcases h with ⟨s, rfl⟩ | ⟨b, rfl⟩ | ⟨n, rfl⟩ | ⟨ss, rfl⟩
  · exact .text s
  · exact .bool b
  · exact .number n
  · exact Datum.distinct_texts ss

theorem Annotates.recordable {vocabulary : Vocabulary} {tag : Tag}
    (h : Annotates source vocabulary tag) : tag.Recordable := by
  intro fields hfields
  obtain ⟨text, -, entity, field, location, o, hread, hmem⟩ := h
  exact .record (nodup_of_mem_readTags hread hmem hfields) fun f hf =>
    (plain_of_mem_readTags hread hmem hfields f hf).distinct

/-- Nothing that a raw graph says is lost when it is recorded, if the source has finite values. -/
theorem Sourced.lossless {vocabulary : Vocabulary} {n : Node} (h : Sourced source vocabulary n)
    (hs : source.FiniteValues) : n.Lossless where
  tags t ht := (h.tags t ht).recordable
  fields fs hfs f hf t ht := (h.fields fs hfs f hf t ht).recordable
  literal k x hx := by
    obtain ⟨d, hd, hshape⟩ := h.literal k x hx
    cases x with
    | number m => exact hs.literal d hd k m hshape
    | _ => rfl
  enum ms hms m hm := by
    obtain ⟨d, parts, hd, hshape, hparts⟩ := h.enum ms hms
    have hmem := mem_of_enumMembers hparts m hm
    obtain ⟨name, value⟩ := m
    cases value with
    | text s => rfl
    | number x => exact hs.enum d hd parts hshape name x hmem

namespace ExtractionRequest

theorem recordable_of_pass (hs : source.FiniteValues) (h : (r.pass d source).1 = .ok (.complete p)) :
    p.extraction.graph.toGraph.Recordable := by
  obtain ⟨resolved, deadline, hresolved, hp⟩ := exists_resolution h
  obtain ⟨a, normal, hash, hfin⟩ := exists_finished hp
  obtain ⟨g, hg⟩ : ∃ g, resolved.value = some g := by
    obtain ⟨root, st, -, rfl⟩ := Resolution.exists_done_of_resolve hresolved
    exact ⟨_, rfl⟩
  obtain ⟨c, hc⟩ : ∃ c, normal.outcome.value = some c := by
    obtain ⟨t, st, root, nodes, -, -, hn⟩ := Graph.normalize_eq_ok hfin.normalized
    exact ⟨_, congrArg (fun n => n.outcome.value) hn⟩
  have hraw : p.raw = g := by rw [hfin.raw, hg]; rfl
  have hgraph : p.extraction.graph = c := by rw [hfin.graph, hc]; rfl
  rw [hgraph]
  refine Graph.recordable_of_normalize (fun id n hn => ?_) hfin.normalized hc
  rw [hraw] at hn
  exact (resolve_sourced hresolved hg hn).lossless hs

end ExtractionRequest

/-! ## What is published -/

namespace CacheEntry

/-- The bytes are an envelope in order that holds the entry. -/
def ReadsFrom (d : Digester) (a : Algorithm) (content : ByteArray) (e : CacheEntry) : Prop :=
  ∃ envelope, Cache.envelope? content = some envelope ∧
    (∀ path, Cache.openEnvelope d a.name path envelope = .ok (.success envelope.payload)) ∧
      read envelope.payload = .ok e

/-- What a cache promises of an entry. -/
structure Sound (d : Digester) (a : Algorithm) (e : CacheEntry) : Prop where
  algorithm : e.graph.algorithm = a.name
  hash : ∃ o, e.graph.toGraph.hash d a = .ok o ∧ o.value = some e.hash
  known : ∀ id n, e.graph.node? id = some n → n.shape.isUnknown = false
  clean : ∀ fs ∈ e.diagnostics, ∃ r : Diagnostic, r.isError = false ∧ fs = Datum.givenBack r.toFields

end CacheEntry

theorem Shape.isUnknown_recorded (shape : Shape) : shape.recorded.isUnknown = shape.isUnknown := by
  cases shape <;> rfl

namespace ExtractionRequest

theorem Files.extract (h : r.Files d source b p e content) :
    r.extract d source = .ok ⟨some p.extraction, p.diagnostics⟩ := by
  rw [ExtractionRequest.extract, h.complete]
  rfl

theorem Files.recordable (h : r.Files d source b p e content) (hs : source.FiniteValues) : e.Recordable := by
  obtain ⟨sources, he⟩ := h.entry
  rw [he]
  refine ⟨recordable_of_pass hs h.complete, fun fs hfs => ?_⟩
  obtain ⟨x, -, rfl⟩ := List.mem_map.1 hfs
  exact x.distinct_toFields

theorem Files.readsFrom (h : r.Files d source b p e content) (hs : source.FiniteValues) :
    e.recorded.ReadsFrom d b content := by
  have hrecordable := h.recordable hs
  obtain ⟨checksum, text, hsum, htext, rfl⟩ := h.holds
  refine ⟨_, Cache.envelope?_indented htext hrecordable.distinct, fun path => ?_,
    CacheEntry.read_canonical hrecordable.graph⟩
  exact Cache.openEnvelope_canonical hsum (by simp [CacheEntry.toDatum, Datum.canonical])

/-- The entry that is filed is sound. -/
theorem Files.sound (h : r.Files d source b p e content) :
    ∃ a, Algorithm.named r.algorithm = .ok a ∧ e.recorded.Sound d a := by
  obtain ⟨sources, he⟩ := h.entry
  have hok : (⟨some p.extraction, p.diagnostics⟩ : Outcome Extraction).ok := by
    simp [Outcome.ok, h.clean]
  obtain ⟨x, -, g, hx, -, -, hknown, -⟩ := exists_raw_of_extract h.extract hok
  obtain rfl := Option.some.inj hx
  obtain ⟨resolved, deadline, -, hp⟩ := exists_resolution h.complete
  obtain ⟨a, normal, hash, hfin⟩ := exists_finished hp
  have hgraph : e.graph = p.extraction.graph := by rw [he]; rfl
  have hdiagnostics : e.diagnostics = p.diagnostics.map Diagnostic.toFields := by rw [he]; rfl
  refine ⟨a, hfin.named, ?_, ?_, fun id n hn => ?_, fun fs hfs => ?_⟩
  · obtain ⟨t, st, root, nodes, -, -, hn⟩ := Graph.normalize_eq_ok hfin.normalized
    change e.graph.algorithm = a.name
    rw [hgraph, hfin.graph, hn]
    rfl
  · refine ⟨hash, Graph.hash_recorded ?_, ?_⟩
    · rw [hgraph]
      exact hfin.hashed
    · rw [← hfin.fingerprint, h.hash]
      rfl
  · obtain ⟨m, hm, rfl⟩ := Option.map_eq_some_iff.1 ((Graph.node?_recorded id).symm.trans hn)
    rw [hgraph] at hm
    exact (Shape.isUnknown_recorded m.shape).trans (hknown id m hm)
  · obtain ⟨gs, hgs, rfl⟩ := List.mem_map.1 hfs
    rw [hdiagnostics] at hgs
    obtain ⟨x, hx, rfl⟩ := List.mem_map.1 hgs
    exact ⟨x, by simpa using List.any_eq_false.1 h.clean x hx, rfl⟩

/-- The raw graph is settled, no texts collide, and digests are told from raw names. -/
def Settles (d : Digester) (source : DeclarationSource) (r : ExtractionRequest) : Prop :=
  ∀ a g, Algorithm.named r.algorithm = .ok a → r.Resolves source g →
    g.Settled d a ∧ d.CollisionFree a (g.texts d a) ∧ d.Unnumbered a

theorem Files.hash_eq (h : r.Files d source b p e content) (hs : r.Settles d source) :
    e.recorded.hash = e.recorded.graph.root := by
  obtain ⟨sources, he⟩ := h.entry
  have hok : (⟨some p.extraction, p.diagnostics⟩ : Outcome Extraction).ok := by
    simp [Outcome.ok, h.clean]
  obtain ⟨x, a', g, hx, ha', hg, -, -, y, hy, hroot⟩ := exists_raw_of_extract h.extract hok
  obtain rfl := Option.some.inj hx
  obtain ⟨hset, hfree, hd⟩ := hs a' g ha' hg
  have hgraph : e.graph = p.extraction.graph := by rw [he]; rfl
  have hhash : e.hash = y := Option.some.inj (h.hash.symm.trans hy)
  change e.hash = e.graph.root
  rw [hgraph, hhash]
  exact hroot hfree hset fun t ht hemit =>
    ht.detached hd (fun id n hn x hx => hg.numbered hn hx) hemit

end ExtractionRequest

end TypeAtlas
