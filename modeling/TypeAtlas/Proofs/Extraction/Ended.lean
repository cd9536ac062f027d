import TypeAtlas.Proofs.Cache.Fingerprint
import TypeAtlas.Proofs.Cache.Kept
import TypeAtlas.Proofs.Cache.Trusted
import TypeAtlas.Proofs.Extraction.Filed

/-! # Extractions that end

Documents are written where nothing is refused. An extraction through a cache that holds no reports comes
to its end if its pass is complete without a report, and then warns of a damaged document at most.
-/

namespace TypeAtlas

open Work

/-! ## Records that can be written -/

theorem Datum.writes_name (x : Option String) {k : ℕ} : (Datum.optional .text x).Writes k := by
  cases x with
  | none => exact writes_null
  | some s => exact writes_text s

theorem SymbolSummary.writes (s : SymbolSummary) : s.toDatum.Writes 2 := by
  apply Datum.writes_record
  simp only [List.forall_mem_cons, List.not_mem_nil, false_implies, implies_true, and_true]
  exact ⟨Datum.writes_text _, Datum.writes_name _, Datum.writes_bool _, Datum.writes_texts _,
    Datum.writes_texts _⟩

theorem SymbolTable.writes {t : SymbolTable} (h : Json.encodable t.schemaVersion) : t.toDatum.Writes 4 := by
  apply Datum.writes_record
  simp only [List.forall_mem_cons, List.not_mem_nil, false_implies, implies_true, and_true]
  refine ⟨Datum.writes_number h, Datum.writes_text _, Datum.writes_text _, Datum.writes_list ?_⟩
  rw [List.forall_mem_map]
  exact fun s _ => s.writes

theorem IndexedFile.writes (f : IndexedFile) : f.toDatum.Writes 2 := by
  apply Datum.writes_record
  simp only [List.forall_mem_cons, List.not_mem_nil, false_implies, implies_true, and_true]
  refine ⟨Datum.writes_text _, Datum.writes_record ?_⟩
  rw [List.forall_mem_map]
  exact fun s _ => Datum.writes_name _

theorem RepositoryIndex.writes {i : RepositoryIndex} (h : Json.encodable i.schemaVersion) :
    i.toDatum.Writes 4 := by
  apply Datum.writes_record
  simp only [List.forall_mem_cons, List.not_mem_nil, false_implies, implies_true, and_true]
  refine ⟨Datum.writes_number h, Datum.writes_text _, Datum.writes_text _, Datum.writes_record ?_⟩
  rw [List.forall_mem_map]
  exact fun f _ => f.2.writes

theorem Manifest.writes {m : Manifest} (h : Json.encodable m.schemaVersion)
    (hfiles : Json.encodable m.fileCount) (hsymbols : Json.encodable m.symbolCount)
    (hcounts : ∀ d ∈ m.diagnostics, Json.encodable d.2) : m.toDatum.Writes 3 := by
  apply Datum.writes_record
  simp only [List.forall_mem_cons, List.not_mem_nil, false_implies, implies_true, and_true]
  refine ⟨Datum.writes_number h, Datum.writes_text _, Datum.writes_text _, Datum.writes_number hfiles,
    Datum.writes_number hsymbols, Datum.writes_texts _, Datum.writes_record ?_, Datum.writes_list ?_⟩
  · rw [List.forall_mem_map]
    exact fun d hd => Datum.writes_number (hcounts d hd)
  · rw [List.forall_mem_map]
    exact fun names _ => Datum.writes_texts names

theorem Json.encodable_natCast {n : ℕ} (h : n < 0x10000000000000000) : encodable n := by
  simp only [encodable, Bool.and_eq_true, decide_eq_true_eq]
  omega

/-! ## Documents -/

theorem Cache.Warns.congr {α β : Type} {o : Outcome α} {o' : Outcome β} (h : Warns o)
    (ho : o'.diagnostics = o.diagnostics) : Warns o' := by
  unfold Warns at h ⊢
  rwa [ho]

theorem Cache.Warns.noIoFailure {α : Type} {o : Outcome α} (h : Cache.Warns o) : NoIoFailure o.diagnostics := by
  intro x hx
  rcases h with h | ⟨g, h, hcode, -⟩
  · simp [h] at hx
  · rw [h, List.mem_singleton] at hx
    rw [hx, hcode]
    decide

theorem Cache.Warns.codes {α : Type} {o : Outcome α} (h : Cache.Warns o) :
    o.diagnostics.length ≤ 1 ∧ ∀ x ∈ o.diagnostics, x.code = DiagnosticKey.cacheCorrupted.code := by
  rcases h with h | ⟨g, h, hcode, -⟩
  · simp [h]
  · simp [h, hcode]

namespace ContentCache

open Cache

variable {d : Digester} {c : ContentCache} {v₀ : Volume} {base : Location} {w : Workspace}
  {P : CacheKind → String → ByteArray → Prop}

theorem succeeds_store {e : CacheEntry} (h : Kept v₀ base P w.volume) (h₀ : Cache.Empty v₀ c.root base)
    (hv : w.volume.Granted) (fingerprint : String) (he : e.toDatum.Writes 253) :
    Succeeds (c.store d fingerprint e) w fun o _ => o = {} := by
  obtain ⟨s, hs⟩ := (EntryKey.mk fingerprint e.filePath e.symbol).exists_compact
  have hlayout : Succeeds (ensureLayout c.root) w fun o w₁ => o = {} ∧ w₁ = w :=
    (h.runs_ensureLayout h₀).succeeds ⟨rfl, rfl⟩
  have hpath := entryPath_eq (d := d) (c := c) hs
  refine hlayout.bind ?_
  rintro _ _ ⟨rfl, rfl⟩
  rw [if_neg (by decide)]
  refine succeeds_lift_bind hpath (succeeds_say_bind fun log => ?_)
  exact Kept.succeeds_writeEnvelope h h₀ hv (documentName_ne d c s)
    (not_null_mem_entryFilename (d.nameable _ _)) he

theorem exists_tablePath (d : Digester) (c : ContentCache) (file : String) : ∃ key,
    c.tablePath d file = .ok ((directory c.root .symbols).child (entryFilename key)) ∧ '\x00' ∉ key.toList := by
  obtain ⟨s, hs⟩ : ∃ s, Json.compact (.texts ["symbols", file]) = .ok s :=
    Datum.writes_texts (k := 0) _ .compact 0 (by decide)
  have hkey : c.tableKey d file = .ok (d.text c.algorithm s) := Digester.value_eq_ok.2 ⟨s, hs, rfl⟩
  exact ⟨_, by rw [tablePath, hkey]; rfl, d.nameable _ _⟩

theorem succeeds_storeTable {t : SymbolTable} (h : Kept v₀ base P w.volume)
    (h₀ : Cache.Empty v₀ c.root base) (hv : w.volume.Granted) (ht : t.toDatum.Writes 253) :
    Succeeds (c.storeTable d t) w fun o _ => o = {} := by
  obtain ⟨key, hpath, hkey⟩ := exists_tablePath d c t.filePath
  have hlayout : Succeeds (ensureLayout c.root) w fun o w₁ => o = {} ∧ w₁ = w :=
    (h.runs_ensureLayout h₀).succeeds ⟨rfl, rfl⟩
  refine hlayout.bind ?_
  rintro _ _ ⟨rfl, rfl⟩
  rw [if_neg (by decide)]
  refine succeeds_lift_bind hpath ?_
  exact h.succeeds_writeEnvelope h₀ hv (entryFilename_ne key) (not_null_mem_entryFilename hkey) ht

end ContentCache

/-! ## Extractions -/

namespace ExtractionRequest

variable {d : Digester} {source : DeclarationSource} {r : ExtractionRequest} {p : ExtractionPass}
  {root : Path} {w : Workspace} {c : ContentCache} {v₀ : Volume} {base : Location}
  {P : CacheKind → String → ByteArray → Prop} {observe : List Resolution.Event → Work Unit}

/-- The pass is complete without a report, and its graph can be written. -/
structure Completes (d : Digester) (source : DeclarationSource) (r : ExtractionRequest)
    (p : ExtractionPass) : Prop where
  complete : (r.pass d source).1 = .ok (.complete p)
  silent : p.diagnostics = []
  writes : p.extraction.graph.toDatum.Writes 252

def completed : Attempt PassEnd → Option ExtractionPass
  | .ok (.complete p) => some p
  | _ => none

/-- Nothing is reported, and the graph can be written in an entry. -/
def wellMade (p : ExtractionPass) : Bool :=
  p.diagnostics.isEmpty && p.extraction.graph.toDatum.encodable &&
    decide (p.extraction.graph.toDatum.nesting ≤ 252)

theorem completed_eq_some {x : Attempt PassEnd} (h : completed x = some p) : x = .ok (.complete p) := by
  unfold completed at h
  split at h
  · rw [Option.some.inj h]
  · cases h

theorem completes_of_completed (h : completed (r.pass d source).1 = some p) (hp : wellMade p) :
    r.Completes d source p := by
  simp only [wellMade, Bool.and_eq_true, List.isEmpty_iff, decide_eq_true_eq] at hp
  obtain ⟨⟨hsilent, hencodable⟩, hnesting⟩ := hp
  exact ⟨completed_eq_some h, hsilent, Json.writes_of_nesting hencodable hnesting⟩

theorem Completes.writes_entry (hp : r.Completes d source p) (hash : String)
    (sources : Std.ExtTreeMap String String) : (r.entry p hash sources).toDatum.Writes 253 := by
  apply Datum.writes_record
  simp only [List.forall_mem_cons, List.not_mem_nil, false_implies, implies_true, and_true]
  have hversion : Json.encodable Cache.schemaVersion := by decide
  refine ⟨Datum.writes_number hversion, Datum.writes_text _, Datum.writes_text _, Datum.writes_text _,
    hp.writes, Datum.writes_record ?_, Datum.writes_list ?_⟩
  · rw [List.forall_mem_map]
    exact fun s _ => Datum.writes_text _
  · simp [entry, hp.silent]

theorem succeeds_fileAway {f : Filing} (hp : r.Completes d source p) (h : Cache.Kept v₀ base P w.volume)
    (h₀ : Cache.Empty v₀ f.cache.root base) (hv : w.volume.Granted) :
    Succeeds (r.fileAway d root f p) w fun ds _ => ds = [] := by
  refine succeeds_get_bind ?_
  split
  · next sources hash _ _ =>
    refine (ContentCache.succeeds_store h h₀ hv f.key (hp.writes_entry hash sources)).bind ?_
    rintro _ w' rfl
    exact succeeds_pure rfl
  · exact succeeds_pure rfl

theorem succeeds_extractAnew {f : Filing} (hp : r.Completes d source p)
    (hobserve : ∀ events, Succeeds (observe events) w fun _ w' => w'.volume = w.volume)
    (h : Cache.Kept v₀ base P w.volume) (h₀ : Cache.Empty v₀ f.cache.root base) (hv : w.volume.Granted)
    (before : List Diagnostic) :
    Succeeds (r.extractAnew d root source observe (some f) before) w fun o _ => o.diagnostics = before := by
  unfold extractAnew
  have hpass := hp.complete
  cases hrun : r.pass d source with
  | mk result trace =>
    rw [hrun] at hpass
    dsimp only
    refine (hobserve _).bind fun _ w₁ hw₁ => succeeds_modify_bind (succeeds_lift_bind hpass ?_)
    dsimp only
    rw [← hw₁] at h hv
    split
    · rw [pure_bind]
      exact succeeds_say_bind fun log => succeeds_pure (by simp [hp.silent])
    · have haway (log : Array LogLine) :
          Succeeds (r.fileAway d root f p) { w₁ with log } fun ds _ => ds = [] :=
        succeeds_fileAway hp h h₀ hv
      refine (haway _).bind ?_
      rintro _ w₂ rfl
      exact succeeds_say_bind fun log => succeeds_pure (by simp [hp.silent])

/-- The entries that can be found in a cache hold no reports. -/
structure Silent (d : Digester) (c : ContentCache) (v : Volume) : Prop where
  shallow : ∀ k content, c.Found d k v content → Cache.Shallow content
  silent : ∀ k content e, c.Found d k v content → c.Vouches d k content e → e.diagnostics = []

theorem ofEntry_silent {e : CacheEntry} (he : e.diagnostics = []) (before : List Diagnostic) :
    ∃ x, r.ofEntry before e = .ok ⟨some x, before⟩ := by
  rw [ofEntry, he, List.mapM_nil, pure_bind, List.append_nil]
  exact ⟨_, rfl⟩

/-- An extraction through a cache that holds no reports comes to its end, and warns at most once. -/
theorem succeeds_extractCached {a : Algorithm} {content : ByteArray} (hp : r.Completes d source p)
    (hread : w.volume.read (root / Path.ofString r.file) = .ok content)
    (ha : Algorithm.named r.algorithm = .ok a) (hsilent : Silent d c w.volume)
    (hobserve : ∀ events w, Succeeds (observe events) w fun _ w' => w'.volume = w.volume)
    (h : Cache.Kept v₀ base P w.volume) (h₀ : Cache.Empty v₀ c.root base) (hv : w.volume.Granted) :
    Succeeds (r.extractCached d root source observe c) w fun o _ => Cache.Warns o := by
  unfold extractCached
  refine succeeds_get_bind ?_
  have hcontent : w.volume.readOutcome (root / Path.ofString r.file) = .success content := by
    rw [Volume.readOutcome, hread]
    rfl
  rw [hcontent]
  dsimp only [Outcome.success]
  obtain ⟨key, hkey⟩ := exists_fingerprintKey d a r.vocabulary content
  refine succeeds_lift_bind ha (succeeds_lift_bind (congrArg Attempt.ofWrite hkey) ?_)
  obtain ⟨hit, w₁, hruns, hw₁, -, hcases⟩ := ContentCache.lookup_trusted
    (c := c) (k := ⟨key, r.file, r.symbol⟩) (hsilent.shallow ⟨key, r.file, r.symbol⟩)
  rw [← hw₁] at h hv
  have hanew : Cache.Warns hit →
      Succeeds (r.extractAnew d root source observe (some ⟨c, key, a⟩) hit.diagnostics) w₁
        fun o _ => Cache.Warns o := fun hwarns =>
    (succeeds_extractAnew hp (hobserve · w₁) h h₀ hv _).imp fun _ _ _ ho => hwarns.congr ho
  refine (hruns.succeeds (Q := fun hit' w' => hit' = hit ∧ w' = w₁) ⟨rfl, rfl⟩).bind ?_
  rintro _ _ ⟨rfl, rfl⟩
  rcases hcases with ⟨found, e, hfound, he, rfl⟩ | ⟨-, hvalue, hwarns⟩
  · dsimp only [Outcome.success]
    refine succeeds_get_bind ?_
    split
    · obtain ⟨x, hx⟩ := ofEntry_silent (r := r) (hsilent.silent _ _ _ hfound he) []
      refine succeeds_say_bind fun log => ?_
      exact (runs_lift.2 ⟨hx.symm, rfl⟩).succeeds (.inl rfl)
    · exact hanew (.inl rfl)
  · rw [hvalue]
    exact hanew hwarns

end ExtractionRequest

end TypeAtlas
