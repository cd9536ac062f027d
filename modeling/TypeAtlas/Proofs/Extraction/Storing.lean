import TypeAtlas.Extraction.Cached
import TypeAtlas.Proofs.Cache.Stored
import TypeAtlas.Proofs.Cache.Kept
import TypeAtlas.Proofs.Extraction.Filed

/-! # Extractions that store

An extraction from source files through a cache leaves the volume alone, or what it does to it is to
store the entry of its pass, and it hands on what the storing reports. The values that source files
describe are finite, so the entry can be read back.
-/

namespace TypeAtlas

open Work

variable {d : Digester} {source : DeclarationSource} {r : ExtractionRequest}
  {p : ExtractionPass} {root : Path} {w w' : Workspace} {c : ContentCache} {key : String}
  {observe : List Resolution.Event → Work Unit}

theorem Work.keeps_volume_log (lines : List LogLine) : Keeps Workspace.volume (log lines) :=
  keeps_modify fun _ => rfl

theorem Work.keeps_volume_observe (t : SourceTree) (events : List Resolution.Event) :
    Keeps Workspace.volume (Work.observe t events) := by
  unfold Work.observe
  split
  apply Keeps.bind
  · exact keeps_modify fun _ => rfl
  · exact fun _ => keeps_volume_log _

namespace ExtractionRequest

/-! ## How extractions end -/

/-- The storing of an entry for a complete pass: what it leaves, and what is reported of it. -/
def Stores (d : Digester) (source : DeclarationSource) (c : ContentCache) (r : ExtractionRequest)
    (p : ExtractionPass) (v v' : Volume) (ds : List Diagnostic) : Prop :=
  ∃ key e w₁ w₂ stored, w₁.volume = v ∧ w₂.volume = v' ∧ Runs (c.store d key e) w₁ (.ok stored) w₂ ∧
    (∀ content, Cache.Holds d c.algorithm e.toDatum content → r.Files d source c.algorithm p e content) ∧
    stored.diagnostics ⊆ ds

/-- How an extraction through a cache ends if it does not fail, and what becomes of the volume. -/
inductive Comes (d : Digester) (source : DeclarationSource) (c : ContentCache) (r : ExtractionRequest)
    (v v' : Volume) (o : Outcome Extraction) : Prop
  | unreadable (hreport : ¬ NoIoFailure o.diagnostics) (hv : v' = v)
  | found {key : String} {content : ByteArray} {payload : Datum} {e : CacheEntry}
      {x : Extraction} (hread : v.read (c.file .ir key) = .ok content)
      (hpayload : Cache.Envelops d c.algorithm.name content payload) (he : CacheEntry.read payload = .ok e)
      (hfile : e.filePath = r.file) (hsymbol : e.symbol = r.symbol) (ho : o.value = some x)
      (hgraph : x.graph = e.graph) (hv : v' = v)
  | late {report : Diagnostic} (hpass : (r.pass d source).1 = .ok (.timedOut report))
      (hreport : report ∈ o.diagnostics) (hv : v' = v)
  | passed {p : ExtractionPass} (hpass : (r.pass d source).1 = .ok (.complete p))
      (ho : o.value = some p.extraction) (hreports : p.diagnostics ⊆ o.diagnostics)
      (hv : v' = v ∨ r.Stores d source c p v v' o.diagnostics)

/-- The files that count as read are those from before, or those that were observed. -/
def Pins (observe : List Resolution.Event → Work Unit) (w w' : Workspace) : Prop :=
  w'.pinned = w.pinned ∨ ∃ events w₁ w₂, Runs (observe events) w₁ (.ok ⟨⟩) w₂ ∧
    w₁.volume = w.volume ∧ w₁.pinned = w.pinned ∧ w'.pinned = w₂.pinned

theorem runs_fileAway_ok {f : Filing} {ds : List Diagnostic}
    (h : Runs (r.fileAway d root f p) w (.ok ds) w') :
    w' = w ∨ ∃ hash sources stored, p.extraction.fingerprint = some hash ∧
      Runs (f.cache.store d f.key (r.entry p hash sources)) w (.ok stored) w' ∧ ds = stored.diagnostics := by
  rw [fileAway, runs_get_bind] at h
  split at h
  · next sources hash _ hhash =>
    obtain ⟨stored, w₁, hstored, h⟩ := runs_bind_ok.1 h
    obtain ⟨hds, rfl⟩ := runs_pure.1 h
    exact .inr ⟨hash, sources, stored, hhash, hstored, Except.ok.inj hds⟩
  · exact .inl (runs_pure.1 h).2

theorem runs_extractAnew_ok {f : Filing} {before : List Diagnostic} {o : Outcome Extraction}
    (hobserve : ∀ events, Keeps Workspace.volume (observe events))
    (h : Runs (r.extractAnew d root source observe (some f) before) w (.ok o) w') :
    r.Comes d source f.cache w.volume w'.volume o ∧ Pins observe w w' := by
  unfold extractAnew at h
  cases hpass : r.pass d source with
  | mk result trace =>
    rw [hpass] at h
    dsimp only at h
    obtain ⟨_, w₁, hobserved, h⟩ := runs_bind_ok.1 h
    have hv₁ := hobserve _ _ _ _ hobserved
    rw [log, runs_modify_bind] at h
    obtain ⟨ending, hresult, h⟩ := runs_lift_bind_ok.1 h
    have hpins {w₂ : Workspace} (h : w₂.pinned = w₁.pinned) : Pins observe w w₂ :=
      .inr ⟨_, w, w₁, hobserved, rfl, rfl, h⟩
    cases ending with
    | timedOut report =>
      rw [say, log, runs_modify_bind] at h
      obtain ⟨ho, rfl⟩ := runs_pure.1 h
      obtain rfl := Except.ok.inj ho
      exact ⟨.late (by rw [hpass, hresult]) List.mem_cons_self hv₁, hpins rfl⟩
    | complete p =>
      dsimp only at h
      have hpassed : (r.pass d source).1 = .ok (.complete p) := by rw [hpass, hresult]
      split at h
      · rw [pure_bind, say, log, runs_modify_bind] at h
        obtain ⟨ho, rfl⟩ := runs_pure.1 h
        obtain rfl := Except.ok.inj ho
        refine ⟨.passed hpassed rfl ?_ (.inl hv₁), hpins rfl⟩
        exact List.subset_append_of_subset_left _ (List.subset_append_right _ _)
      · next hclean =>
        rw [Bool.not_eq_true, List.any_append, Bool.or_eq_false_iff] at hclean
        obtain ⟨more, w₂, hmore, h⟩ := runs_bind_ok.1 h
        rw [say, log, runs_modify_bind] at h
        obtain ⟨ho, rfl⟩ := runs_pure.1 h
        obtain rfl := Except.ok.inj ho
        have hpinned := keeps_fileAway Cache.aside_pinned _ _ _ hmore
        refine ⟨.passed hpassed rfl ?_ ?_, hpins hpinned⟩
        · exact List.subset_append_of_subset_left _ (List.subset_append_right _ _)
        rcases runs_fileAway_ok hmore with rfl | ⟨hash, sources, stored, hhash, hstored, rfl⟩
        · exact .inl hv₁
        · refine .inr ⟨f.key, r.entry p hash sources, _, w₂, stored, ?_, rfl, hstored,
            fun content hholds => ⟨hpassed, hclean.2, hhash, ⟨sources, rfl⟩, hholds⟩,
            List.subset_append_right _ _⟩
          exact hv₁

theorem runs_extractCached_ok {o : Outcome Extraction}
    (hobserve : ∀ events, Keeps Workspace.volume (observe events))
    (h : Runs (r.extractCached d root source observe c) w (.ok o) w') :
    r.Comes d source c w.volume w'.volume o ∧ Pins observe w w' := by
  rw [extractCached, runs_get_bind] at h
  dsimp only at h
  split at h
  · next hnone =>
    obtain ⟨ho, rfl⟩ := runs_pure.1 h
    obtain rfl := Except.ok.inj ho
    refine ⟨.unreadable (fun hio => ?_) rfl, .inl rfl⟩
    unfold Volume.readOutcome at hnone hio
    cases hread : w'.volume.read (root / Path.ofString r.file) with
    | ok content => simp [hread, Outcome.ofFileResult, Outcome.success] at hnone
    | error e =>
      rw [hread] at hio
      exact not_noIoFailure_ofFileError _ _ hio
  obtain ⟨a, -, h⟩ := runs_lift_bind_ok.1 h
  obtain ⟨key, -, h⟩ := runs_lift_bind_ok.1 h
  obtain ⟨hit, w₁, hhit, h⟩ := runs_bind_ok.1 h
  have hv₁ := ContentCache.keeps_lookup_of _ keeps_volume_log _ _ _ hhit
  have hpinned := ContentCache.keeps_lookup_of _ Cache.aside_pinned.log _ _ _ hhit
  have hanew (h : Runs (r.extractAnew d root source observe (some ⟨c, key, a⟩) hit.diagnostics) w₁
      (.ok o) w') : r.Comes d source c w.volume w'.volume o ∧ Pins observe w w' := by
    rw [← hv₁]
    obtain ⟨hcomes, hpins⟩ := runs_extractAnew_ok hobserve h
    refine ⟨hcomes, ?_⟩
    rcases hpins with hsame | ⟨events, w₂, w₃, hobserved, hv₂, hbefore, hafter⟩
    · exact .inl (hsame.trans hpinned)
    · exact .inr ⟨events, w₂, w₃, hobserved, hv₂.trans hv₁, hbefore.trans hpinned, hafter⟩
  split at h
  · next e he =>
    rw [runs_get_bind] at h
    split at h
    · rw [say, log, runs_modify_bind] at h
      obtain ⟨ho, rfl⟩ := runs_lift.1 h
      obtain ⟨replayed, -, ho⟩ := bind_eq_ok.1 ho.symm
      obtain rfl := Except.ok.inj ho
      obtain ⟨key, content, payload, hread, hpayload, hentry, hfile, hsymbol⟩ :=
        ContentCache.exists_envelops_of_lookup hhit he
      exact ⟨.found hread hpayload hentry hfile hsymbol rfl rfl hv₁, .inl hpinned⟩
    · exact hanew h
  · exact hanew h

end ExtractionRequest

/-! ## Source files -/

namespace SourceTree

/-- The declarations of source files have finite values. -/
theorem finiteValues (t : SourceTree) : t.source.FiniteValues := by
  have halone {types : Descriptions} {i : DescriptionId} (h : Occurs t.source types i) :
      ∃ D : RecordDeclaration, types = D.alone.types := by
    induction h with
    | root hd =>
      obtain ⟨found, -, hfound⟩ := bind_eq_ok.1 hd
      obtain ⟨D, -, rfl⟩ := Option.map_eq_some_iff.1 (Except.ok.inj hfound)
      exact ⟨D, rfl⟩
    | child _ _ _ ih => exact ih
  have hread {x : Description} (h : Describes t.source x) :
      ∃ cells c, Description.read cells c = .ok x := by
    obtain ⟨types, i, ho, hd⟩ := h
    obtain ⟨D, rfl⟩ := halone ho
    obtain ⟨c, -, hc⟩ := Description.exists_read_of_get hd
    exact ⟨_, c, hc⟩
  refine ⟨fun x hx => ?_, fun x hx => ?_⟩
  · obtain ⟨cells, c, hc⟩ := hread hx
    exact (Description.finite_of_read hc).1
  · obtain ⟨cells, c, hc⟩ := hread hx
    exact (Description.finite_of_read hc).2

end SourceTree

end TypeAtlas
