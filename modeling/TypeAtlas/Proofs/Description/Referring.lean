import TypeAtlas.Proofs.Resolution.Mentioned
import TypeAtlas.Proofs.Resolution.Recorded

/-! # References in data

Placing a datum keeps the fields of its records together: what a placed datum refers to has the name and the
file that some record of the datum gives.
-/

namespace TypeAtlas

/-- A datum in which every record of a reference has a name and a file that belong together. -/
inductive Datum.Referring (R : String → Option String → Prop) : Datum → Prop
  | scalar {d : Datum} (hlist : ∀ ds, d ≠ .list ds) (hrecord : ∀ fs, d ≠ .record fs) : Referring R d
  | list {ds : List Datum} (h : ∀ d ∈ ds, Referring R d) : Referring R (.list ds)
  | record {fs : List (String × Datum)} (hlabel : ∀ f ∈ fs, f.1 ≠ "$def")
      (hkind : Datum.field? fs "kind" = some (.text "ref") → ∃ name file, R name file ∧
        Datum.field? fs "name" = some (.text name) ∧ Datum.field? fs "file" = file.map .text)
      (h : ∀ f ∈ fs, Referring R f.2) : Referring R (.record fs)

namespace Description

variable {R : String → Option String → Prop} {d : Datum} {ds : List Datum} {fs : List (String × Datum)}
  {st : Placing}

/-- A cell that is read as a reference has a name and a file that belong together. -/
def Faithful (R : String → Option String → Prop) (c : Cell) : Prop :=
  datum? c "kind" = some (.text "ref") → ∃ name file, R name file ∧
    datum? c "name" = some (.text name) ∧ datum? c "file" = file.map .text

/-- The field of a record, and its part in the cell. -/
def Corresponds (f : String × Datum) (g : String × Part) : Prop :=
  f.1 = g.1 ∧ ∀ s, g.2.toDatum = .text s ↔ f.2 = .text s

namespace Placing

theorem run_place_scalar (hlist : ∀ ds, d ≠ .list ds) (hrecord : ∀ fs, d ≠ .record fs) :
    (place d).run st = (.plain d, st) := by
  cases d with
  | list ds => exact absurd rfl (hlist ds)
  | record fs => exact absurd rfl (hrecord fs)
  | _ => rfl

theorem run_place_list : (place (.list ds)).run st =
    (.many ((placeAll ds).run st).1, ((placeAll ds).run st).2) := by
  rw [place]
  rfl

theorem run_place_use {label : String} (h : use? fs = some label) : ((place (.record fs)).run st).2 = st := by
  rw [place, h]
  rfl

theorem exists_run_place_record (st : Placing) (h : use? fs = none) (hlabel : ∀ f ∈ fs, f.1 ≠ "$def") :
    ∃ st', st'.cells = st.cells.push [] ∧ ((place (.record fs)).run st).2.cells =
      ((placeFields fs).run st').2.cells.set! st.cells.size
        (((placeFields fs).run st').1.filter fun p => fs.any (·.1 == p.1)) := by
  have hnone : Datum.field? fs "$def" = none := by
    simpa [Datum.field?] using hlabel
  refine ⟨{ cells := st.cells.push [], labels := st.labels }, rfl, ?_⟩
  rw [place, h]
  simp only [takeLabel, hnone]
  rfl

theorem run_placeAll_cons : ((placeAll (d :: ds)).run st).2 =
    ((placeAll ds).run ((place d).run st).2).2 := by
  rw [placeAll]
  rfl

theorem run_placeFields_cons {k : String} : (placeFields ((k, d) :: fs)).run st =
    ((k, ((place d).run st).1) :: ((placeFields fs).run ((place d).run st).2).1,
      ((placeFields fs).run ((place d).run st).2).2) := by
  rw [placeFields]
  rfl

theorem toDatum_run_place {s : String} : ((place d).run st).1.toDatum = .text s ↔ d = .text s := by
  cases d with
  | list ds =>
    rw [run_place_list]
    exact ⟨nofun, nofun⟩
  | record fs =>
    obtain ⟨id, own, hpart⟩ : ∃ id own, ((place (.record fs)).run st).1 = .one id (.record own) := by
      rw [place]
      split <;> exact ⟨_, _, rfl⟩
    rw [hpart]
    exact ⟨nofun, nofun⟩
  | _ => rw [run_place_scalar (by simp) (by simp), Part.toDatum]

theorem corresponds_run_placeFields (fs : List (String × Datum)) (st : Placing) : List.Forall₂ Corresponds fs ((placeFields fs).run st).1 := by
  induction fs generalizing st with
  | nil =>
    rw [placeFields]
    exact .nil
  | cons f fs ih =>
    rw [run_placeFields_cons]
    exact .cons ⟨rfl, fun s => toDatum_run_place⟩ (ih _)

end Placing

/-! ## Fields and cells -/

variable {ps : List (String × Part)} {k s : String}

theorem rel_find? (h : List.Forall₂ Corresponds fs ps) :
    Option.Rel Corresponds (fs.find? fun f => f.1 == k) (ps.find? fun p => p.1 == k) := by
  induction h with
  | nil => exact .none
  | cons hf _ ih =>
    rw [List.find?_cons, List.find?_cons, ← hf.1]
    split
    · exact .some hf
    · exact ih

theorem rel_datum? (h : List.Forall₂ Corresponds fs ps) :
    Option.Rel Corresponds (fs.reverse.find? fun f => f.1 == k) (ps.reverse.find? fun p => p.1 == k) :=
  rel_find? (List.forall₂_reverse_iff.2 h)

theorem datum?_eq_text (h : List.Forall₂ Corresponds fs ps) :
    datum? ps k = some (.text s) ↔ Datum.field? fs k = some (.text s) := by
  have hrel := rel_datum? (k := k) h
  rw [datum?, part?, Datum.field?]
  generalize (fs.reverse.find? fun f => f.1 == k) = x at hrel ⊢
  generalize (List.find? (fun p : String × Part => p.1 == k) ps.reverse) = y at hrel ⊢
  cases hrel with
  | none => simp
  | some hf => simpa using hf.2 s

theorem datum?_eq_none (h : List.Forall₂ Corresponds fs ps) :
    datum? ps k = none ↔ Datum.field? fs k = none := by
  have hrel := rel_datum? (k := k) h
  rw [datum?, part?, Datum.field?]
  generalize (fs.reverse.find? fun f => f.1 == k) = x at hrel ⊢
  generalize (List.find? (fun p : String × Part => p.1 == k) ps.reverse) = y at hrel ⊢
  cases hrel <;> simp

theorem filter_corresponds (h : List.Forall₂ Corresponds fs ps) :
    (ps.filter fun p => fs.any (·.1 == p.1)) = ps := by
  refine List.filter_eq_self.2 fun p hp => ?_
  obtain ⟨i, hi, rfl⟩ := List.getElem_of_mem hp
  have hfs : i < fs.length := h.length_eq ▸ hi
  exact List.any_eq_true.2 ⟨fs[i], List.getElem_mem _, by simpa using (h.get hfs hi).1⟩

theorem faithful_of_corresponds (h : List.Forall₂ Corresponds fs ps)
    (hkind : Datum.field? fs "kind" = some (.text "ref") → ∃ name file, R name file ∧
      Datum.field? fs "name" = some (.text name) ∧ Datum.field? fs "file" = file.map .text) :
    Faithful R ps := by
  intro hps
  obtain ⟨name, file, hR, hname, hfile⟩ := hkind ((datum?_eq_text h).1 hps)
  refine ⟨name, file, hR, (datum?_eq_text h).2 hname, ?_⟩
  cases file with
  | none => exact (datum?_eq_none h).2 hfile
  | some file => exact (datum?_eq_text h).2 hfile

/-! ## Placed data -/

namespace Placing

def Faithful (R : String → Option String → Prop) (st : Placing) : Prop :=
  ∀ c ∈ st.cells, Description.Faithful R c

theorem faithful_run_placeAll (h : ∀ d ∈ ds, ∀ st, Faithful R st → Faithful R ((place d).run st).2)
    (hst : Faithful R st) : Faithful R ((placeAll ds).run st).2 := by
  induction ds generalizing st with
  | nil =>
    rw [placeAll]
    exact hst
  | cons d ds ih =>
    obtain ⟨hd, hds⟩ := List.forall_mem_cons.1 h
    rw [run_placeAll_cons]
    exact ih hds (hd st hst)

theorem faithful_run_placeFields
    (h : ∀ f ∈ fs, ∀ st, Faithful R st → Faithful R ((place f.2).run st).2) (hst : Faithful R st) :
    Faithful R ((placeFields fs).run st).2 := by
  induction fs generalizing st with
  | nil =>
    rw [placeFields]
    exact hst
  | cons f fs ih =>
    obtain ⟨hf, hfs⟩ := List.forall_mem_cons.1 h
    rw [run_placeFields_cons]
    exact ih hfs (hf st hst)

theorem faithful_run_place (h : d.Referring R) (hst : Faithful R st) :
    Faithful R ((place d).run st).2 := by
  induction h generalizing st with
  | scalar hlist hrecord =>
    rw [run_place_scalar hlist hrecord]
    exact hst
  | list _ ih =>
    rw [run_place_list]
    exact faithful_run_placeAll (fun d hd st hst => ih d hd hst) hst
  | @record fs hlabel hkind _ ih =>
    cases huse : use? fs with
    | some label =>
      rw [run_place_use huse]
      exact hst
    | none =>
      obtain ⟨st', hcells, hplaced⟩ := exists_run_place_record st huse hlabel
      have hst' : Faithful R st' := by
        intro c hc
        rw [hcells] at hc
        rcases Array.mem_push.1 hc with hc | rfl
        · exact hst c hc
        · exact nofun
      have hfields := corresponds_run_placeFields fs st'
      intro c hc
      rw [hplaced, filter_corresponds hfields] at hc
      rcases Array.mem_or_eq_of_mem_setIfInBounds hc with hc | rfl
      · exact faithful_run_placeFields (fun f hf st hst => ih f hf hst) hst' c hc
      · exact faithful_of_corresponds hfields hkind

end Placing

theorem readLiteral_ne_reference {c : Cell} {name : String} {file : Option String} :
    readLiteral c ≠ .ok (.reference name file) := by
  intro h
  unfold readLiteral at h
  dsimp only at h
  split at h
  · obtain ⟨_, -, h⟩ := map_eq_ok.1 h
    cases h
  · split at h
    · cases h
    · split at h <;> cases h
    · cases h
    · cases h
    · obtain ⟨_, -, h⟩ := map_eq_ok.1 h
      cases h

theorem readPrimitive_ne_reference {c : Cell} {name : String} {file : Option String} :
    readPrimitive c ≠ .ok (.reference name file) := by
  intro h
  unfold readPrimitive at h
  split at h
  · split at h <;> cases h
  · cases h
  · cases h
  · obtain ⟨_, -, h⟩ := map_eq_ok.1 h
    cases h

theorem of_readShape_reference {cells : Array Cell} {c : Cell} {name : String} {file : Option String}
    (h : readShape cells c = .ok (.reference name file)) :
    datum? c "kind" = some (.text "ref") ∧ readReference c = .ok (.reference name file) := by
  have hkind {s : String} (hs : datum c "kind" = .text s) : datum? c "kind" = some (.text s) := by
    rw [datum] at hs
    cases hd : datum? c "kind" with
    | none => simp [hd] at hs
    | some d => simpa [hd] using hs
  unfold readShape at h
  dsimp only at h
  split at h
  · exact absurd h readPrimitive_ne_reference
  · exact absurd h readLiteral_ne_reference
  · cases h
  · split at h <;> cases h
  · obtain ⟨_, -, h⟩ := map_eq_ok.1 h
    cases h
  · obtain ⟨_, -, h⟩ := bind_eq_ok.1 h
    cases h
  · obtain ⟨_, -, h⟩ := map_eq_ok.1 h
    cases h
  · obtain ⟨_, -, h⟩ := map_eq_ok.1 h
    cases h
  · obtain ⟨_, -, h⟩ := bind_eq_ok.1 h
    cases h
  · next href => exact ⟨hkind href, h⟩
  · split at h
    · obtain ⟨_, -, h⟩ := bind_eq_ok.1 h
      obtain ⟨_, -, h⟩ := bind_eq_ok.1 h
      cases h
    · rw [pure_bind] at h
      obtain ⟨_, -, h⟩ := bind_eq_ok.1 h
      cases h
  · split at h
    · obtain ⟨_, -, h⟩ := map_eq_ok.1 h
      cases h
    · obtain ⟨_, -, h⟩ := map_eq_ok.1 h
      cases h
  · obtain ⟨_, -, h⟩ := map_eq_ok.1 h
    cases h

theorem readReference_eq {c : Cell} {name name' : String} {file file' : Option String}
    (hname : datum? c "name" = some (.text name)) (hfile : datum? c "file" = file.map .text)
    (h : readReference c = .ok (.reference name' file')) :
    name' = name ∧ file' = file.filter (· ≠ "") := by
  unfold readReference at h
  obtain ⟨shown, hshown, h⟩ := bind_eq_ok.1 h
  obtain ⟨d, hd, rfl⟩ := map_eq_ok.1 hshown
  obtain rfl : .text name = d := by
    rw [datum, hname] at hd
    exact Except.ok.inj hd
  split at h
  · cases h
  · obtain ⟨rfl, rfl⟩ := DescriptionShape.reference.inj (Except.ok.inj h)
    refine ⟨rfl, ?_⟩
    cases file with
    | none => simp [datum, hfile, Datum.holds]
    | some file =>
      by_cases hempty : file = "" <;>
        simp [datum, hfile, Datum.holds, Datum.display, hempty, Option.filter]

/-- What a placed datum refers to has a name and a file that belong together. -/
theorem exists_of_mentions {i : DescriptionId} {name : String} {file : Option String} (h : d.Referring R)
    (hm : (ofDatum d).1.Mentions i name file) : ∃ written, R name written ∧ file = written.filter (· ≠ "") := by
  induction hm with
  | inside _ _ _ ih => exact ih
  | @itself i x name file hd hs =>
    obtain ⟨c, hmem, hc⟩ := exists_read_of_get hd
    have hfaithful : Faithful R c := by
      refine Placing.faithful_run_place h ?_ c hmem
      intro c hc
      obtain rfl : c = [] := by simpa using hc
      exact nofun
    obtain ⟨position, -, hc⟩ := bind_eq_ok.1 hc
    obtain ⟨shape, hshape, hc⟩ := bind_eq_ok.1 hc
    obtain rfl := Except.ok.inj hc
    dsimp only at hs
    rw [hs] at hshape
    obtain ⟨hkind, hread⟩ := of_readShape_reference hshape
    obtain ⟨name', written, hR, hname, hfile⟩ := hfaithful hkind
    obtain ⟨rfl, hwritten⟩ := readReference_eq hname hfile hread
    exact ⟨written, hR, hwritten⟩

end Description

end TypeAtlas
