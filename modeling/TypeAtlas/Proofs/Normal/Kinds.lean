import Mathlib.Data.Set.Insert
import TypeAtlas.Proofs.Normal.Twins

/-! # Kinds of value

The kinds of value of a type, as a set. Null goes along with any other kind, so a union is of the kinds of
its members but for null, and that does not depend on which of the members with the same digest has
stayed. Another member that is null changes nothing, unless the other ones have no values at all.
-/

namespace TypeAtlas

namespace Term

variable {t u c : Term} {cs ds : List Term} {k : String} {ks ls : List String} {A B : Set String}

/-! ## Lists of kinds -/

theorem mem_addKind {x : String} : k ∈ addKind ks x ↔ k ∈ ks ∨ k = x := by
  unfold addKind
  split <;> simp_all

theorem nodup_addKind (x : String) (h : ks.Nodup) : (addKind ks x).Nodup := by
  unfold addKind
  split
  · exact h
  · next hnew =>
    rw [← List.concat_eq_append]
    exact h.concat (by simpa using hnew)

theorem mem_foldl_addKind {α : Type} {f : α → String} {xs : List α} :
    k ∈ xs.foldl (fun ks x => addKind ks (f x)) ks ↔ k ∈ ks ∨ ∃ x ∈ xs, f x = k := by
  induction xs generalizing ks with
  | nil => simp
  | cons x xs ih =>
    rw [List.foldl_cons, ih, mem_addKind]
    simp [or_assoc, eq_comm]

theorem nodup_foldl_addKind (h : ls.Nodup) : (ks.foldl addKind ls).Nodup := by
  induction ks generalizing ls with
  | nil => exact h
  | cons k ks ih => exact ih (nodup_addKind k h)

/-- Null is left out unless there is nothing else. -/
def settle (A : Set String) : Set String := {k ∈ A | k = "null" → A ⊆ {"null"}}

theorem setOf_dropNull (h : ks.Nodup) : {k | k ∈ dropNull ks} = settle {k | k ∈ ks} := by
  ext k
  unfold dropNull settle
  split
  · next hlen =>
    have hother : ¬ {k | k ∈ ks} ⊆ {"null"} := by
      intro hsub
      rcases ks with _ | ⟨a, _ | ⟨b, rest⟩⟩
      · simp at hlen
      · simp at hlen
      · have ha : a = "null" := hsub List.mem_cons_self
        have hb : b = "null" := hsub (List.mem_cons_of_mem _ List.mem_cons_self)
        simp [ha, hb] at h
    simp [hother]
  · next hlen =>
    rcases ks with _ | ⟨a, _ | ⟨b, rest⟩⟩
    · simp
    · simp +contextual
    · simp at hlen

theorem settle_insert_null (h : settle A ≠ ∅) : settle (insert "null" A) = settle A := by
  obtain ⟨j, hj, hnull⟩ := Set.nonempty_iff_ne_empty.2 h
  ext k
  simp only [settle, Set.mem_sep_iff, Set.mem_insert_iff, Set.insert_subset_iff, Set.mem_singleton_iff,
    true_and]
  constructor
  · rintro ⟨rfl | hk, hsub⟩
    · -- Null is the only kind, so it is the one that the others have.
      have hj' : j = "null" := hsub rfl hj
      exact ⟨hj' ▸ hj, hsub⟩
    · exact ⟨hk, hsub⟩
  · rintro ⟨hk, hsub⟩
    exact ⟨.inr hk, hsub⟩

/-! ## Kinds of terms -/

def Classified (t : Term) : Prop := t.kinds?.isSome

/-- The kinds of value of a type that can be classified. -/
def kinds (t : Term) : Set String := {k | ∃ ks, t.kinds? = some ks ∧ k ∈ ks}

/-- The kinds of value of some types. -/
def kindsOf (cs : List Term) : Set String := {k | ∃ c ∈ cs, k ∈ c.kinds}

structure SameKinds (t u : Term) : Prop where
  classified : t.Classified ↔ u.Classified
  kinds : t.kinds = u.kinds

theorem SameKinds.of_eq (h : t.kinds? = u.kinds?) : SameKinds t u := by
  constructor <;> simp only [Classified, Term.kinds, h]

/-- What a type is made up of: it is of the kinds that these have, but for null. -/
structure Amounts (t : Term) (cs : List Term) : Prop where
  classified : t.Classified ↔ ∀ c ∈ cs, c.Classified
  kinds : t.Classified → t.kinds = settle (kindsOf cs)

theorem kinds_of_eq_some (h : t.kinds? = some ks) : t.kinds = {k | k ∈ ks} := by
  simp [kinds, h]

theorem allKinds?_spec (cs : List Term) :
    ((allKinds? cs).isSome ↔ ∀ c ∈ cs, c.Classified) ∧
      ∀ ks ∈ allKinds? cs, ks.Nodup ∧ {k | k ∈ ks} = kindsOf cs := by
  induction cs with
  | nil => simp [allKinds?, kindsOf]
  | cons c cs ih =>
    obtain ⟨hsome, hkinds⟩ := ih
    rw [List.forall_mem_cons, ← hsome, allKinds?, Classified]
    cases hc : c.kinds? with
    | none => simp
    | some ks =>
      cases hcs : allKinds? cs with
      | none => simp
      | some ls =>
        obtain ⟨hnodup, hls⟩ := hkinds ls hcs
        refine ⟨by simp, fun _ h => ?_⟩
        obtain rfl := Option.some.inj h
        refine ⟨nodup_foldl_addKind hnodup, ?_⟩
        ext k
        have hk : k ∈ ls ↔ k ∈ kindsOf cs := Set.ext_iff.1 hls k
        have hmem : k ∈ ks.foldl addKind ls ↔ _ := mem_foldl_addKind (f := fun x : String => x)
        simp [hmem, hk, kindsOf, kinds_of_eq_some hc, or_comm]

theorem amounts_children {δ : Option Discriminant} (h : t.shape = .union δ) : Amounts t t.children := by
  obtain ⟨head, cs⟩ := t
  obtain ⟨hsome, hkinds⟩ := allKinds?_spec cs
  have hunion : (mk head cs).kinds? = (allKinds? cs).map dropNull := by
    rw [kinds?]
    simp only [shape_mk] at h
    simp only [h]
  constructor
  · rw [Classified, hunion, Option.isSome_map]
    exact hsome
  · intro hc
    rw [Classified, hunion, Option.isSome_map] at hc
    obtain ⟨ks, hks⟩ := Option.isSome_iff_exists.1 hc
    rw [kinds_of_eq_some (hunion.trans (congrArg _ hks)), setOf_dropNull (hkinds ks hks).1, (hkinds ks hks).2]
    rfl

theorem kinds_of_not_classified (h : ¬ t.Classified) : t.kinds = ∅ := by
  rw [Set.eq_empty_iff_forall_notMem]
  rintro k ⟨ks, hks, -⟩
  exact h (Option.isSome_iff_exists.2 ⟨ks, hks⟩)

theorem settle_of_not_mem (h : "null" ∉ A) : settle A = A :=
  Set.sep_eq_self_iff_mem_true.2 fun _ hk he => absurd (he ▸ hk) h

theorem settle_of_subsingleton (h : A.Subsingleton) : settle A = A :=
  Set.sep_eq_self_iff_mem_true.2 fun _ hk he _ hj => h hj (he ▸ hk)

theorem settle_settle (A : Set String) : settle (settle A) = settle A :=
  Set.sep_eq_self_iff_mem_true.2 fun _ hk he _ hj => hk.2 he hj.1

/-- The kinds of the values of an enum. -/
def memberKind (m : EnumMember) : String :=
  match m.value with
  | .text _ => "string"
  | .number _ => "number"

theorem kinds_enum {ms : List EnumMember} (h : t.shape = .enum ms) :
    t.Classified ∧ ∀ k, k ∈ t.kinds ↔ ∃ m ∈ ms, memberKind m = k := by
  obtain ⟨head, cs⟩ := t
  have hsome : (mk head cs).kinds? = some (ms.foldl (fun ks m => addKind ks (memberKind m)) []) := by
    simp only [shape_mk] at h
    rw [kinds?]
    simp only [h]
    rfl
  refine ⟨Option.isSome_iff_exists.2 ⟨_, hsome⟩, fun k => ?_⟩
  rw [kinds_of_eq_some hsome, Set.mem_ofPred_eq, mem_foldl_addKind]
  simp

theorem sameKinds_reference {symbol : String} (h : t.shape = .reference symbol) (hc : c ∈ t.children.head?) :
    SameKinds t c := by
  obtain ⟨head, cs⟩ := t
  obtain ⟨rest, hcs⟩ : ∃ rest, cs = c :: rest := by
    cases cs with
    | nil => cases hc
    | cons d rest =>
      obtain rfl : d = c := Option.some.inj hc
      exact ⟨rest, rfl⟩
  refine .of_eq ?_
  simp only [shape_mk] at h
  rw [kinds?]
  simp only [h, hcs, headKinds?]

/-- Null is never one kind of several. -/
theorem settle_kinds (t : Term) : settle t.kinds = t.kinds := by
  induction t with
  | mk head cs ih =>
    have hone {k : String} (h : (mk head cs).kinds? = some [k]) : settle (mk head cs).kinds = (mk head cs).kinds := by
      rw [kinds_of_eq_some h]
      exact settle_of_subsingleton fun a ha b hb => by simp_all
    cases hs : head.shape with
    | primitive p => exact hone (by rw [kinds?]; simp only [hs]; rfl)
    | literal l x => exact hone (by rw [kinds?]; simp only [hs]; rfl)
    | array => exact hone (by rw [kinds?]; simp only [hs]; rfl)
    | tuple => exact hone (by rw [kinds?]; simp only [hs]; rfl)
    | object fs => exact hone (by rw [kinds?]; simp only [hs]; rfl)
    | enum ms =>
      refine settle_of_not_mem fun hnull => ?_
      obtain ⟨m, -, hm⟩ := ((kinds_enum (t := mk head cs) hs).2 "null").1 hnull
      revert hm
      unfold memberKind
      split <;> decide
    | union δ =>
      by_cases hc : (mk head cs).Classified
      · rw [(amounts_children (t := mk head cs) hs).kinds hc, settle_settle]
      · rw [kinds_of_not_classified hc]
        exact settle_of_subsingleton Set.subsingleton_empty
    | reference symbol =>
      cases cs with
      | nil =>
        have hnone : ¬ (mk head []).Classified := by
          rw [Classified, kinds?]
          simp only [hs, headKinds?]
          decide
        rw [kinds_of_not_classified hnone]
        exact settle_of_subsingleton Set.subsingleton_empty
      | cons c rest =>
        have hsame : SameKinds (mk head (c :: rest)) c := sameKinds_reference hs rfl
        rw [hsame.kinds]
        exact ih c List.mem_cons_self
    | _ =>
      have hnone : ¬ (mk head cs).Classified := by
        rw [Classified, kinds?]
        simp only [hs]
        decide
      rw [kinds_of_not_classified hnone]
      exact settle_of_subsingleton Set.subsingleton_empty

/-! ## What a type is made up of -/

theorem kindsOf_singleton (t : Term) : kindsOf [t] = t.kinds := by simp [kindsOf]

theorem amounts_self (t : Term) : Amounts t [t] where
  classified := by simp
  kinds _ := by rw [kindsOf_singleton, settle_kinds]

theorem SameKinds.symm (h : SameKinds t u) : SameKinds u t := ⟨h.classified.symm, h.kinds.symm⟩

theorem SameKinds.trans (h : SameKinds t u) (h' : SameKinds u c) : SameKinds t c :=
  ⟨h.classified.trans h'.classified, h.kinds.trans h'.kinds⟩

theorem SameKinds.of_amounts (ht : Amounts t cs) (hu : Amounts u cs) : SameKinds t u := by
  have hclassified : t.Classified ↔ u.Classified := ht.classified.trans hu.classified.symm
  refine ⟨hclassified, ?_⟩
  by_cases hc : t.Classified
  · rw [ht.kinds hc, hu.kinds (hclassified.1 hc)]
  · rw [kinds_of_not_classified hc, kinds_of_not_classified (mt hclassified.2 hc)]

theorem Amounts.congr (h : Amounts t cs) (hcs : ∀ c ∈ cs, ∃ d ∈ ds, SameKinds c d)
    (hds : ∀ d ∈ ds, ∃ c ∈ cs, SameKinds c d) : Amounts t ds := by
  have hkinds : kindsOf cs = kindsOf ds := by
    ext k
    constructor
    · rintro ⟨c, hc, hk⟩
      obtain ⟨d, hd, hsame⟩ := hcs c hc
      exact ⟨d, hd, hsame.kinds ▸ hk⟩
    · rintro ⟨d, hd, hk⟩
      obtain ⟨c, hc, hsame⟩ := hds d hd
      exact ⟨c, hc, hsame.kinds ▸ hk⟩
  refine ⟨?_, fun hc => hkinds ▸ h.kinds hc⟩
  rw [h.classified]
  constructor
  · intro hall d hd
    obtain ⟨c, hc, hsame⟩ := hds d hd
    exact hsame.classified.1 (hall c hc)
  · intro hall c hc
    obtain ⟨d, hd, hsame⟩ := hcs c hc
    exact hsame.classified.2 (hall d hd)

/-- Parts that are null change nothing, unless the others have no values. -/
theorem SameKinds.of_append_null (ht : Amounts t cs) (hu : Amounts u (cs ++ ds))
    (hnull : ∀ d ∈ ds, d.Classified ∧ d.kinds = {"null"}) (hsome : t.kinds? ≠ some []) : SameKinds t u := by
  have hclassified : t.Classified ↔ u.Classified := by
    rw [ht.classified, hu.classified]
    exact ⟨fun h c hc => (List.mem_append.1 hc).elim (h c) fun hc => (hnull c hc).1,
      fun h c hc => h c (List.mem_append_left _ hc)⟩
  refine ⟨hclassified, ?_⟩
  by_cases hc : t.Classified
  · have hne : settle (kindsOf cs) ≠ ∅ := by
      obtain ⟨ks, hks⟩ := Option.isSome_iff_exists.1 hc
      rw [← ht.kinds hc, kinds_of_eq_some hks]
      rintro hempty
      refine hsome (hks.trans (congrArg some (List.eq_nil_iff_forall_not_mem.2 fun k hk => ?_)))
      exact Set.eq_empty_iff_forall_notMem.1 hempty k hk
    rw [ht.kinds hc, hu.kinds (hclassified.1 hc)]
    cases ds with
    | nil => rw [List.append_nil]
    | cons d ds =>
      have hinsert : kindsOf (cs ++ d :: ds) = insert "null" (kindsOf cs) := by
        ext k
        constructor
        · rintro ⟨c, hc, hk⟩
          rcases List.mem_append.1 hc with hc | hc
          · exact .inr ⟨c, hc, hk⟩
          · exact .inl (by simpa [(hnull c hc).2] using hk)
        · rintro (rfl | ⟨c, hc, hk⟩)
          · exact ⟨d, by simp, by simp [(hnull d List.mem_cons_self).2]⟩
          · exact ⟨c, List.mem_append_left _ hc, hk⟩
      rw [hinsert, settle_insert_null hne]
  · rw [kinds_of_not_classified hc, kinds_of_not_classified (mt hclassified.2 hc)]

/-! ## Twins -/

theorem memberKind_eq {m n : EnumMember} (h : m.value.toDatum.canonical = n.value.toDatum.canonical) :
    memberKind m = memberKind n := by
  have hnumber (q : Number) (x : String) : (EnumValue.number q).toDatum.canonical ≠
      (EnumValue.text x).toDatum.canonical := by
    simp only [EnumValue.toDatum, Datum.canonical]
    split <;> simp
  unfold memberKind
  cases hm : m.value with
  | text x =>
    cases hn : n.value with
    | text y => rfl
    | number q => exact absurd (hm ▸ hn ▸ h.symm) (hnumber q x)
  | number p =>
    cases hn : n.value with
    | text y => exact absurd (hm ▸ hn ▸ h) (hnumber p y)
    | number q => rfl

theorem exists_memberKind_iff {ms ns : List EnumMember}
    (h : List.Forall₂ (fun m n : EnumMember => m.name = n.name ∧
      m.value.toDatum.canonical = n.value.toDatum.canonical) (sortMembers ms) (sortMembers ns)) :
    (∃ m ∈ ms, memberKind m = k) ↔ ∃ n ∈ ns, memberKind n = k := by
  have hkinds : (sortMembers ms).map memberKind = (sortMembers ns).map memberKind := by
    have hsame := h.imp fun _ _ hmn => memberKind_eq hmn.2
    rwa [← List.forall₂_map_right_iff (f := memberKind), ← List.forall₂_map_left_iff (f := memberKind)
      (R := (· = ·)), List.forall₂_eq_eq_eq] at hsame
  have hmem (l : List EnumMember) : (∃ m ∈ l, memberKind m = k) ↔ k ∈ (sortMembers l).map memberKind := by
    rw [List.mem_map]
    exact exists_congr fun m => and_congr_left' List.mem_mergeSort.symm
  rw [hmem, hmem, hkinds]

theorem Twin.sameKinds (h : Twin t u) : SameKinds t u := by
  induction h with
  | @intro t u hal _ ih =>
    have hlen := hal.length
    have hleft : ∀ c ∈ t.children, ∃ d ∈ u.children, SameKinds c d := by
      intro c hc
      obtain ⟨i, hi, rfl⟩ := List.getElem_of_mem hc
      exact ⟨_, List.getElem_mem (hlen ▸ hi), ih i hi (hlen ▸ hi)⟩
    have hright : ∀ d ∈ u.children, ∃ c ∈ t.children, SameKinds c d := by
      intro d hd
      obtain ⟨i, hi, rfl⟩ := List.getElem_of_mem hd
      exact ⟨_, List.getElem_mem (hlen ▸ hi), ih i (hlen ▸ hi) hi⟩
    have hshape := hal.shape
    obtain ⟨head, cs⟩ := t
    obtain ⟨head', ds⟩ := u
    simp only [shape_mk, children_mk] at hshape hlen hleft hright
    generalize hs : head.shape = shape at hshape
    generalize hs' : head'.shape = shape' at hshape
    cases hshape with
    | union =>
      have hcs : Amounts (mk head cs) cs := amounts_children (t := mk head cs) hs
      have hds : Amounts (mk head' ds) ds := amounts_children (t := mk head' ds) hs'
      exact .of_amounts (hcs.congr hleft hright) hds
    | reference =>
      cases cs with
      | nil =>
        obtain rfl : ds = [] := List.length_eq_zero_iff.1 hlen.symm
        refine .of_eq ?_
        rw [kinds?, kinds?]
        simp only [hs, hs']
      | cons c cs =>
        cases ds with
        | nil => cases hlen
        | cons d ds =>
          have hc : SameKinds (mk head (c :: cs)) c := sameKinds_reference hs rfl
          have hd : SameKinds (mk head' (d :: ds)) d := sameKinds_reference hs' rfl
          exact (hc.trans (ih 0 (by simp) (by simp))).trans hd.symm
    | enum hms =>
      obtain ⟨hclassified, hkinds⟩ := kinds_enum (t := mk head cs) hs
      obtain ⟨hclassified', hkinds'⟩ := kinds_enum (t := mk head' ds) hs'
      refine ⟨iff_of_true hclassified hclassified', Set.ext fun k => ?_⟩
      rw [hkinds, hkinds', exists_memberKind_iff hms]
    | _ =>
      refine .of_eq ?_
      rw [kinds?, kinds?]
      simp only [hs, hs']
      try rfl

end Term

end TypeAtlas
