import Mathlib.Data.List.Nodup
import Std.Data.ExtTreeMap
import TypeAtlas.Proofs.Json.Unambiguous
import TypeAtlas.Schema.Basic

/-! # Records read back

A record in the form in which a document gives it back, with its fields in order, has the same fields
as before, so a schema reads from it what was put in.
-/

namespace TypeAtlas

variable {α β : Type} {fs gs : List (String × Datum)} {name : String} {d : Datum}

namespace Datum

theorem field?_eq_some (hnames : (fs.map Prod.fst).Nodup) :
    field? fs name = some d ↔ (name, d) ∈ fs := by
  unfold field?
  rw [Option.map_eq_some_iff]
  constructor
  · rintro ⟨f, hf, rfl⟩
    obtain rfl : f.1 = name := by simpa using List.find?_some hf
    exact List.mem_reverse.1 (List.mem_of_find?_eq_some hf)
  · intro hmem
    obtain ⟨f, hf⟩ : ∃ f, fs.reverse.find? (fun f => f.1 == name) = some f := by
      rw [← Option.isSome_iff_exists, List.find?_isSome]
      exact ⟨_, List.mem_reverse.2 hmem, by simp⟩
    refine ⟨f, hf, ?_⟩
    have hname : f.1 = name := by simpa using List.find?_some hf
    have hf := List.mem_reverse.1 (List.mem_of_find?_eq_some hf)
    exact congrArg Prod.snd (List.inj_on_of_nodup_map hnames hf hmem hname)

theorem field?_sortFields_canonicalFields (hnames : (fs.map Prod.fst).Nodup) (name : String) :
    field? (Json.sortFields (canonicalFields fs)) name = (field? fs name).map canonical := by
  have hperm : (Json.sortFields (canonicalFields fs)).Perm (canonicalFields fs) :=
    Json.sortFields_perm _
  have hnames' : ((Json.sortFields (canonicalFields fs)).map Prod.fst).Nodup := by
    rw [(hperm.map Prod.fst).nodup_iff, canonicalFields_eq_map, List.map_map]
    exact hnames
  refine Option.ext fun d => ?_
  rw [field?_eq_some hnames', hperm.mem_iff, canonicalFields_eq_map, Option.map_eq_some_iff]
  constructor
  · intro h
    obtain ⟨f, hf, h⟩ := List.mem_map.1 h
    obtain ⟨rfl, rfl⟩ := Prod.mk.inj h
    exact ⟨f.2, (field?_eq_some hnames).2 hf, rfl⟩
  · rintro ⟨d, hd, rfl⟩
    exact List.mem_map.2 ⟨(name, d), (field?_eq_some hnames).1 hd, rfl⟩

end Datum

namespace Schema

/-- The fields are those of a record that was put in order. -/
def Gives (gs fs : List (String × Datum)) : Prop :=
  ∀ name, Datum.field? gs name = (Datum.field? fs name).map Datum.canonical

theorem required_eq_ok {read : Datum → Checked α} {a : α} (hd : Datum.field? gs name = some d)
    (hread : read d = .ok a) : required gs name read = .ok a := by
  simp only [required, hd, hread]
  rfl

theorem withDefault_eq_ok {read : Datum → Checked α} {a b : α} (hd : Datum.field? gs name = some d)
    (hread : read d = .ok a) : withDefault gs name read b = .ok a := by
  simp only [withDefault, hd, hread]
  rfl

theorem Gives.field? (h : Gives gs fs) (hd : Datum.field? fs name = some d) :
    Datum.field? gs name = some d.canonical := by
  rw [h name, hd, Option.map_some]

theorem required_of_gives {read : Datum → Checked α} {a : α} (h : Gives gs fs)
    (hd : Datum.field? fs name = some d) (hread : read d.canonical = .ok a) :
    required gs name read = .ok a :=
  required_eq_ok (h.field? hd) hread

theorem withDefault_of_gives {read : Datum → Checked α} {a b : α} (h : Gives gs fs)
    (hd : Datum.field? fs name = some d) (hread : read d.canonical = .ok a) :
    withDefault gs name read b = .ok a :=
  withDefault_eq_ok (h.field? hd) hread

/-- A record with known fields only is read by its fields. -/
theorem record_canonical {known : List String} {read : List (String × Datum) → Checked α} {a : α}
    (hnames : (fs.map Prod.fst).Nodup) (hknown : ∀ f ∈ fs, f.1 ∈ known)
    (hread : ∀ gs, Gives gs fs → read gs = .ok a) :
    record known read (Datum.record fs).canonical = .ok a := by
  have hothers : noOthers known (Json.sortFields (Datum.canonicalFields fs)) = .ok () := by
    have hnone : (Json.sortFields (Datum.canonicalFields fs)).filter
        (fun f => !known.contains f.1) = [] := by
      rw [List.filter_eq_nil_iff]
      intro f hf
      obtain ⟨g, hg, rfl⟩ : ∃ g ∈ fs, (g.1, g.2.canonical) = f := by
        rw [Json.mem_sortFields, Datum.canonicalFields_eq_map] at hf
        exact List.mem_map.1 hf
      simpa using hknown g hg
    rw [noOthers, hnone]
  rw [Datum.canonical, record, hothers, hread _ (Datum.field?_sortFields_canonicalFields hnames)]
  rfl

theorem collect_map {read : Datum → Checked β} {f : α → Datum} {g : α → β}
    {xs : List α} (h : ∀ x ∈ xs, read (f x).canonical = .ok (g x)) (i : ℕ) :
    Checked.collect read i ((xs.map f).map Datum.canonical) = .ok (xs.map g) := by
  induction xs generalizing i with
  | nil => rfl
  | cons x xs ih =>
    obtain ⟨hx, hxs⟩ := List.forall_mem_cons.1 h
    rw [List.map_cons, List.map_cons, Checked.collect, hx, ih hxs]
    rfl

theorem tuple_canonical {read : Datum → Checked β} {f : α → Datum} {g : α → β} {xs : List α}
    (h : ∀ x ∈ xs, read (f x).canonical = .ok (g x)) :
    tuple read (Datum.list (xs.map f)).canonical = .ok (xs.map g) := by
  rw [Datum.canonical, Datum.canonicalList_eq_map]
  exact collect_map h 0

theorem list_canonical {read : Datum → Checked β} {f : α → Datum} {g : α → β} {xs : List α}
    (h : ∀ x ∈ xs, read (f x).canonical = .ok (g x)) :
    list read (Datum.list (xs.map f)).canonical = .ok (xs.map g) := by
  rw [Datum.canonical, Datum.canonicalList_eq_map]
  exact collect_map h 0

theorem collectFields_map {read : Datum → Checked β} {f : α → Datum} {g : α → β}
    {xs : List (String × α)} (h : ∀ x ∈ xs, read (f x.2) = .ok (g x.2)) :
    Checked.collectFields read (xs.map fun x => (x.1, f x.2)) = .ok (xs.map fun x => (x.1, g x.2)) := by
  induction xs with
  | nil => rfl
  | cons x xs ih =>
    obtain ⟨hx, hxs⟩ := List.forall_mem_cons.1 h
    rw [List.map_cons, Checked.collectFields, hx, ih hxs]
    rfl

theorem dict_canonical {read : Datum → Checked β} {f : α → Datum} {g : α → β}
    {xs : List (String × α)} (h : ∀ x ∈ xs, read (f x.2).canonical = .ok (g x.2)) :
    dict read (Datum.record (xs.map fun x => (x.1, f x.2))).canonical =
      .ok ((Json.sortFields xs).map fun x => (x.1, g x.2)) := by
  rw [Datum.canonical, Datum.canonicalFields_eq_map, List.map_map]
  have hsort := Json.sortFields_map (fun a => (f a).canonical) xs
  rw [show ((fun f => (f.1, f.2.canonical)) ∘ fun x : String × α => (x.1, f x.2)) =
    fun x => (x.1, (f x.2).canonical) from rfl, hsort]
  exact collectFields_map (f := fun a => (f a).canonical) (g := g) fun x hx =>
    h x (Json.mem_sortFields.1 hx)

theorem ofList_eq_of_perm {m : Std.ExtTreeMap String α} {xs : List (String × α)}
    (h : xs.Perm m.toList) : Std.ExtTreeMap.ofList xs = m := by
  have hkeys : m.toList.Pairwise fun a b => ¬ compare a.1 b.1 = .eq :=
    Std.ExtTreeMap.distinct_keys_toList
  have hdistinct : xs.Pairwise fun a b => ¬ compare a.1 b.1 = .eq :=
    h.symm.pairwise hkeys fun hab hba => hab (Std.OrientedCmp.eq_symm hba)
  refine Std.ExtTreeMap.ext_getElem? fun k => ?_
  cases hk : m[k]? with
  | some a =>
    exact Std.ExtTreeMap.getElem?_ofList_of_mem Std.ReflCmp.compare_self hdistinct
      (h.mem_iff.2 (Std.ExtTreeMap.mem_toList_iff_getElem?_eq_some.2 hk))
  | none =>
    refine Std.ExtTreeMap.getElem?_ofList_of_contains_eq_false ?_
    rw [← Bool.not_eq_true, List.contains_iff_mem, List.mem_map]
    rintro ⟨x, hx, rfl⟩
    rw [Std.ExtTreeMap.mem_toList_iff_getElem?_eq_some.1 (h.mem_iff.1 hx)] at hk
    cases hk

/-- A table of values is read back from the record of its entries. -/
theorem table_canonical {read : Datum → Checked β} {f : α → Datum} {g : α → β}
    {m : Std.ExtTreeMap String α} (h : ∀ (k : String) (a : α), m[k]? = some a → read (f a).canonical = .ok (g a)) :
    ∃ xs, dict read (Datum.record (m.toList.map fun x => (x.1, f x.2))).canonical = .ok xs ∧
      Std.ExtTreeMap.ofList xs = m.map fun _ => g := by
  refine ⟨_, dict_canonical (g := g) fun x hx =>
    h x.1 x.2 (Std.ExtTreeMap.mem_toList_iff_getElem?_eq_some.1 hx), ofList_eq_of_perm ?_⟩
  rw [Std.ExtTreeMap.toList_map]
  exact (Json.sortFields_perm _).map _

theorem texts_canonical (ss : List String) : tuple text (Datum.texts ss).canonical = .ok ss := by
  rw [Datum.texts, tuple_canonical (f := Datum.text) (g := id) fun s _ => rfl, List.map_id]

theorem nullable_canonical {read : Datum → Checked β} {f : α → Datum} {g : α → β} {x : Option α}
    (hnull : ∀ a, (f a).canonical ≠ .null) (h : ∀ a ∈ x, read (f a).canonical = .ok (g a)) :
    nullable read (Datum.optional f x).canonical = .ok (x.map g) := by
  cases x with
  | none => rfl
  | some a =>
    rw [Datum.optional, nullable]
    · rw [h a rfl]
      rfl
    · exact hnull a

end Schema

end TypeAtlas
