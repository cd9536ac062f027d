import Mathlib.Data.List.Induction
import Mathlib.Data.List.Sort
import Mathlib.Logic.Relation
import Mathlib.Tactic.ByContra
import TypeAtlas.Reference.Groups

/-! # Strongly connected components

The components of a relation are the sets of symbols that reach each other, as far as a symbol of the
set refers to another one or to itself.
-/

namespace TypeAtlas

/-! ## Components of relations -/

section Components

variable {r : String → String → Prop} {a b c : String} {group : List String}

/-- Two symbols reach each other, or are the same. -/
def Joined (r : String → String → Prop) (a b : String) : Prop :=
  Relation.ReflTransGen r a b ∧ Relation.ReflTransGen r b a

/-- A sorted list of the symbols that a symbol is joined with, which are several or refer to
themselves. -/
structure IsComponent (r : String → String → Prop) (group : List String) : Prop where
  sorted : group.Pairwise (· < ·)
  joined : ∃ a ∈ group, ∀ b, b ∈ group ↔ Joined r a b
  recursive : 1 < group.length ∨ ∃ a ∈ group, r a a

theorem Joined.symm (h : Joined r a b) : Joined r b a := ⟨h.2, h.1⟩

theorem Joined.trans (hab : Joined r a b) (hbc : Joined r b c) : Joined r a c :=
  ⟨hab.1.trans hbc.1, hbc.2.trans hab.2⟩

theorem Joined.reach (h : Joined r a b) (hne : a ≠ b) : Relation.TransGen r a b := by
  rcases Relation.reflTransGen_iff_eq_or_transGen.1 h.1 with rfl | hab
  · exact absurd rfl hne
  · exact hab

namespace IsComponent

theorem mem_iff (h : IsComponent r group) (ha : a ∈ group) : b ∈ group ↔ Joined r a b := by
  obtain ⟨c, -, hc⟩ := h.joined
  rw [hc] at ha ⊢
  constructor
  · exact ha.symm.trans
  · exact ha.trans

theorem reaches (h : IsComponent r group) (ha : a ∈ group) : Relation.TransGen r a a := by
  rcases h.recursive with hlength | ⟨c, hc, hrefers⟩
  · obtain ⟨b, hb, hne⟩ : ∃ b ∈ group, a ≠ b := by
      by_contra hall
      push Not at hall
      have hsame := List.eq_replicate_of_mem fun b hb => (hall b hb).symm
      have hsorted := h.sorted
      rw [hsame, List.pairwise_replicate] at hsorted
      rcases hsorted with hshort | hlt
      · omega
      · exact String.lt_irrefl a hlt
    have hjoined := (h.mem_iff ha).1 hb
    exact (hjoined.reach hne).trans_left hjoined.2
  · have hac := (h.mem_iff ha).1 hc
    exact (Relation.TransGen.single hrefers).trans_right hac.1 |>.trans_left hac.2

end IsComponent

theorem isComponent_pair (hlt : a < b) (hab : r a b) (hba : r b a)
    (honly : ∀ x y, r x y → y = a ∨ y = b) : IsComponent r [a, b] where
  sorted := by simpa using hlt
  joined := by
    refine ⟨a, by simp, fun c => ?_⟩
    rw [List.mem_pair]
    constructor
    · rintro (rfl | rfl)
      · exact ⟨.refl, .refl⟩
      · exact ⟨.single hab, .single hba⟩
    · rintro ⟨hac, -⟩
      rcases Relation.ReflTransGen.cases_tail hac with rfl | ⟨x, -, hx⟩
      · exact .inl rfl
      · exact honly x c hx
  recursive := .inl (by simp)

section Restricted

variable {p : String → Prop}

/-- A way to a symbol that refers to something leads through such symbols only. -/
theorem transGen_restrict (hp : ∀ a b, r a b → p a) (h : Relation.TransGen r a b) (hb : p b) :
    Relation.TransGen (fun a b => r a b ∧ p b) a b := by
  induction h with
  | single hrefers => exact .single ⟨hrefers, hb⟩
  | tail _ hrefers ih => exact (ih (hp _ _ hrefers)).tail ⟨hrefers, hb⟩

theorem joined_restrict (hp : ∀ a b, r a b → p a) :
    Joined (fun a b => r a b ∧ p b) a b ↔ Joined r a b := by
  constructor
  · rintro ⟨hab, hba⟩
    have hweaken : (fun a b => r a b ∧ p b) ≤ r := fun _ _ h => h.1
    exact ⟨Relation.ReflTransGen.mono hweaken _ _ hab, Relation.ReflTransGen.mono hweaken _ _ hba⟩
  · intro h
    by_cases hab : a = b
    · subst hab
      exact ⟨.refl, .refl⟩
    · have hfrom {a b : String} (h : Relation.TransGen r a b) : p a := by
        obtain ⟨c, hc, -⟩ := Relation.TransGen.head'_iff.1 h
        exact hp a c hc
      have hthere := h.reach hab
      have hback := h.symm.reach (Ne.symm hab)
      constructor
      · exact (transGen_restrict hp hthere (hfrom hback)).to_reflTransGen
      · exact (transGen_restrict hp hback (hfrom hthere)).to_reflTransGen

/-- Symbols that refer to nothing have no part in components. -/
theorem isComponent_restrict (hp : ∀ a b, r a b → p a) :
    IsComponent (fun a b => r a b ∧ p b) group ↔ IsComponent r group := by
  constructor
  · rintro ⟨hsorted, ⟨a, ha, hjoined⟩, hrecursive⟩
    refine ⟨hsorted, ⟨a, ha, fun b => (hjoined b).trans (joined_restrict hp)⟩, ?_⟩
    exact hrecursive.imp_right fun ⟨a, ha, hself⟩ => ⟨a, ha, hself.1⟩
  · rintro ⟨hsorted, ⟨a, ha, hjoined⟩, hrecursive⟩
    refine ⟨hsorted, ⟨a, ha, fun b => (hjoined b).trans (joined_restrict hp).symm⟩, ?_⟩
    exact hrecursive.imp_right fun ⟨a, ha, hself⟩ => ⟨a, ha, hself, hp a a hself⟩

end Restricted

end Components

namespace ReferenceGraph

variable {g : ReferenceGraph} {a b node : String}

def Refers (g : ReferenceGraph) (a b : String) : Prop := b ∈ g.successors a

/-- What is referred to is part of the graph. -/
def Closed (g : ReferenceGraph) : Prop := ∀ a b, g.Refers a b → b ∈ g

theorem successors_of_not_mem (ha : a ∉ g) : g.successors a = [] := by
  rw [successors, Std.ExtTreeMap.getD_eq_fallback ha]
  simp

theorem mem_of_reaches (h : Relation.TransGen g.Refers a b) : a ∈ g := by
  by_contra ha
  have hrefers : ∃ c, g.Refers a c := by
    induction h with
    | single hrefers => exact ⟨_, hrefers⟩
    | tail _ _ ih => exact ih
  obtain ⟨c, hc⟩ := hrefers
  rw [Refers, successors_of_not_mem ha] at hc
  cases hc

/-! ## Graphs of references -/

theorem getD_insertIfNew_empty (g : ReferenceGraph) (node a : String) :
    (g.insertIfNew node ∅).getD a ∅ = g.getD a ∅ := by
  rw [Std.ExtTreeMap.getD_insertIfNew]
  split
  · next hnew =>
    rw [Std.LawfulEqCmp.eq_of_compare hnew.1] at hnew
    exact (Std.ExtTreeMap.getD_eq_fallback hnew.2).symm
  · rfl

theorem foldl_insertIfNew (targets : List String) (g : ReferenceGraph) :
    (∀ a, (targets.foldl (fun g target => g.insertIfNew target ∅) g).getD a ∅ = g.getD a ∅) ∧
      ∀ a, a ∈ targets.foldl (fun g target => g.insertIfNew target ∅) g ↔ a ∈ targets ∨ a ∈ g := by
  induction targets generalizing g with
  | nil => simp
  | cons target targets ih =>
    obtain ⟨hget, hmem⟩ := ih (g.insertIfNew target ∅)
    constructor
    · intro a
      rw [List.foldl_cons, hget, getD_insertIfNew_empty]
    · intro a
      rw [List.foldl_cons, hmem, Std.ExtTreeMap.mem_insertIfNew, List.mem_cons]
      constructor
      · rintro (ha | ha | ha)
        · exact .inl (.inr ha)
        · exact .inl (.inl (Std.LawfulEqCmp.eq_of_compare ha).symm)
        · exact .inr ha
      · rintro ((rfl | ha) | ha)
        · exact .inr (.inl Std.ReflCmp.compare_self)
        · exact .inl ha
        · exact .inr (.inr ha)

theorem refers_addReferences {source : String} {targets : List String} :
    (g.addReferences source targets).Refers a b ↔ g.Refers a b ∨ a = source ∧ b ∈ targets := by
  rw [Refers, Refers, successors, successors, Std.ExtTreeSet.mem_toList, Std.ExtTreeSet.mem_toList,
    addReferences]
  rw [(foldl_insertIfNew targets _).1, Std.ExtTreeMap.getD_insert]
  split
  · next hsource =>
    obtain rfl := Std.LawfulEqCmp.eq_of_compare hsource
    simp [Std.ExtTreeSet.mem_insertMany_list]
  · next hsource =>
    have hne : a ≠ source := by
      rintro rfl
      exact hsource Std.ReflCmp.compare_self
    simp [hne]

theorem closed_addReferences {source : String} {targets : List String} (hg : g.Closed) :
    (g.addReferences source targets).Closed := by
  intro a b h
  rw [addReferences, (foldl_insertIfNew targets _).2]
  rcases refers_addReferences.1 h with h | ⟨-, hb⟩
  · exact .inr (Std.ExtTreeMap.mem_insert.2 (.inr (hg a b h)))
  · exact .inl hb

/-- A graph of references refers as these say. -/
theorem ofReferences_spec (references : List (String × List String)) :
    (ofReferences references).Closed ∧
      ∀ a b, (ofReferences references).Refers a b ↔ ∃ targets, (a, targets) ∈ references ∧ b ∈ targets := by
  induction references using List.reverseRecOn with
  | nil =>
    have hnone (a b : String) : ¬ (ofReferences []).Refers a b := by
      simp [Refers, successors, ofReferences]
    exact ⟨fun a b h => absurd h (hnone a b), fun a b => by simp [hnone]⟩
  | append_singleton references r ih =>
    obtain ⟨source, targets⟩ := r
    obtain ⟨hclosed, hrefers⟩ := ih
    have hstep : ofReferences (references ++ [(source, targets)]) =
        (ofReferences references).addReferences source targets := by
      rw [ofReferences, List.foldl_concat]
      rfl
    rw [hstep]
    refine ⟨closed_addReferences hclosed, fun a b => ?_⟩
    rw [refers_addReferences, hrefers]
    constructor
    · rintro (⟨ts, hts, hb⟩ | ⟨rfl, hb⟩)
      · exact ⟨ts, List.mem_append_left _ hts, hb⟩
      · exact ⟨targets, by simp, hb⟩
    · rintro ⟨ts, hts, hb⟩
      rcases List.mem_append.1 hts with hts | hts
      · exact .inl ⟨ts, hts, hb⟩
      · obtain ⟨rfl, rfl⟩ := Prod.mk.inj (List.mem_singleton.1 hts)
        exact .inr ⟨rfl, hb⟩

end ReferenceGraph

end TypeAtlas
