import TypeAtlas.Proofs.Normal.Derived
import Mathlib.Data.List.Induction
import Mathlib.Data.List.Sort

/-! # Sorted members and merged fields

Members of composites are sorted by their digests, and the first of each digest stays. Fields are
sorted by their names; the first of each name stays, and is required when one of the same type is.
Lists that are strictly sorted already stay as they are.
-/

namespace TypeAtlas

def Rising {α : Type} (key : α → String) (xs : List α) : Prop := xs.Pairwise fun a b => key a < key b

namespace Rising

variable {α : Type} {key : α → String} {xs ys : List α}

theorem eq_of_mem_iff (hx : Rising key xs) (hy : Rising key ys) (h : ∀ a, a ∈ xs ↔ a ∈ ys) :
    xs = ys := by
  have : Std.Asymm fun a b : α => key a < key b := ⟨fun a b h => String.lt_asymm h⟩
  have : Std.Irrefl fun a b : α => key a < key b := ⟨fun a => String.lt_irrefl (key a)⟩
  exact List.Pairwise.eq_of_mem_iff hx hy h

theorem eq_of_key_eq (hx : Rising key xs) {a b : α} (ha : a ∈ xs) (hb : b ∈ xs)
    (h : key a = key b) : a = b := by
  induction hx with
  | nil => cases ha
  | @cons c cs hc _ ih =>
    rcases List.mem_cons.1 ha with rfl | ha' <;> rcases List.mem_cons.1 hb with rfl | hb'
    · rfl
    · exact absurd (h ▸ hc b hb') (String.lt_irrefl _)
    · exact absurd (h ▸ hc a ha') (String.lt_irrefl _)
    · exact ih ha' hb'

theorem of_map_eq {β : Type} {key' : β → String} {zs : List β} (h : Rising key xs)
    (he : zs.map key' = xs.map key) : Rising key' zs := by
  rw [Rising, ← List.pairwise_map (R := fun a b : String => a < b), he, List.pairwise_map]
  exact h

theorem of_toList (m : Std.ExtTreeMap String α) : Rising Prod.fst m.toList :=
  (Std.ExtTreeMap.ordered_keys_toList (t := m)).imp fun h => compareOfLessAndEq_eq_lt.1 h

end Rising

namespace Folding

variable {ts : List Term} {t u : Term}

/-! ## Members -/

theorem getElem?_foldl_insertIfNew (ts : List Term) (m : Std.ExtTreeMap String Term) (k : String) :
    (ts.foldl (fun m t => m.insertIfNew t.digest t) m)[k]? =
      m[k]?.or (ts.find? fun t => t.digest == k) := by
  induction ts generalizing m with
  | nil => simp
  | cons t ts ih =>
    rw [List.foldl_cons, ih, Std.ExtTreeMap.getElem?_insertIfNew, List.find?_cons]
    by_cases hk : t.digest = k
    · subst hk
      by_cases hm : t.digest ∈ m
      · simp [hm]
      · simp [hm]
    · simp [hk, beq_false_of_ne hk]

theorem mem_sortedUnique :
    t ∈ sortedUnique ts ↔ ts.find? (fun u => u.digest == t.digest) = some t := by
  have hget (k : String) (v : Term) : (k, v) ∈ (ts.foldl (fun (m : Std.ExtTreeMap String Term) t =>
      m.insertIfNew t.digest t) ∅).toList ↔ ts.find? (fun u => u.digest == k) = some v := by
    rw [Std.ExtTreeMap.mem_toList_iff_getElem?_eq_some, getElem?_foldl_insertIfNew]
    simp
  rw [sortedUnique, List.mem_map]
  constructor
  · rintro ⟨⟨k, v⟩, hv, rfl⟩
    have hv := (hget k v).1 hv
    obtain rfl : v.digest = k := by simpa using List.find?_some hv
    exact hv
  · exact fun h => ⟨_, (hget _ _).2 h, rfl⟩

theorem mem_of_mem_sortedUnique (h : t ∈ sortedUnique ts) : t ∈ ts :=
  List.mem_of_find?_eq_some (mem_sortedUnique.1 h)

theorem exists_mem_sortedUnique (h : t ∈ ts) : ∃ u ∈ sortedUnique ts, u.digest = t.digest := by
  have hs : (ts.find? fun u => u.digest == t.digest).isSome :=
    List.find?_isSome.2 ⟨t, h, by simp⟩
  obtain ⟨u, hu⟩ := Option.isSome_iff_exists.1 hs
  have hd : u.digest = t.digest := by simpa using List.find?_some hu
  exact ⟨u, mem_sortedUnique.2 (hd ▸ hu), hd⟩

theorem rising_sortedUnique (ts : List Term) : Rising Term.digest (sortedUnique ts) := by
  rw [sortedUnique, Rising, List.pairwise_map]
  refine (Rising.of_toList _).imp_of_mem fun {a b} ha hb h => ?_
  have hkey {a : String × Term} (ha : a ∈ (ts.foldl (fun (m : Std.ExtTreeMap String Term) t =>
      m.insertIfNew t.digest t) ∅).toList) : a.2.digest = a.1 := by
    rw [Std.ExtTreeMap.mem_toList_iff_getElem?_eq_some, getElem?_foldl_insertIfNew] at ha
    have := List.find?_some (by simpa using ha : ts.find? (fun t => t.digest == a.1) = some a.2)
    simpa using this
  rw [hkey ha, hkey hb]
  exact h

theorem sortedUnique_of_rising (h : Rising Term.digest ts) : sortedUnique ts = ts := by
  refine (rising_sortedUnique ts).eq_of_mem_iff h fun t => ?_
  refine ⟨mem_of_mem_sortedUnique, fun ht => ?_⟩
  obtain ⟨u, hu, hd⟩ := exists_mem_sortedUnique ht
  rwa [← h.eq_of_key_eq (mem_of_mem_sortedUnique hu) ht hd]

/-! ## Fields -/

variable {fs : List FieldTerm} {f g : FieldTerm}

/-- What fields of one name become: the first of them, required when one of its type is. -/
def united? : List FieldTerm → Option FieldTerm
  | [] => none
  | g :: rest =>
    some ({ g.1 with
      optional := g.1.optional && rest.all fun f => f.2.digest != g.2.digest || f.1.optional }, g.2)

def fieldsNamed (fs : List FieldTerm) (name : String) : List FieldTerm :=
  fs.filter fun f => f.1.name == name

theorem united?_eq_some (h : united? fs = some f) :
    ∃ g ∈ fs, f.2 = g.2 ∧ f.1.name = g.1.name := by
  cases fs with
  | nil => cases h
  | cons g rest =>
    obtain rfl := Option.some.inj h
    exact ⟨g, List.mem_cons_self, rfl, rfl⟩

theorem name_of_united? {name : String} (h : united? (fieldsNamed fs name) = some f) :
    f.1.name = name := by
  obtain ⟨g, hg, -, hn⟩ := united?_eq_some h
  simpa [hn] using (List.mem_filter.1 hg).2

theorem getElem?_absorb_of_ne {merged : Std.ExtTreeMap String FieldTerm} {k : String}
    (h : f.1.name ≠ k) : (absorb merged f)[k]? = merged[k]? := by
  unfold absorb
  split
  · simp [Std.ExtTreeMap.getElem?_insert, h]
  · split
    · simp [Std.ExtTreeMap.getElem?_insert, h]
    · rfl

theorem getElem?_foldl_absorb (fs : List FieldTerm) (k : String) :
    (fs.foldl absorb ∅)[k]? = united? (fieldsNamed fs k) := by
  induction fs using List.reverseRecOn with
  | nil => simp [fieldsNamed, united?]
  | append_singleton fs f ih =>
    rw [List.foldl_append, List.foldl_cons, List.foldl_nil, fieldsNamed, List.filter_append,
      ← fieldsNamed]
    by_cases hk : f.1.name = k
    · subst hk
      have hf : [f].filter (fun g => g.1.name == f.1.name) = [f] := by simp
      rw [hf, absorb]
      cases hg : fieldsNamed fs f.1.name with
      | nil =>
        rw [hg] at ih
        simp only [ih, united?]
        simp
      | cons g rest =>
        rw [hg] at ih
        simp only [ih, united?]
        have hall : (rest ++ [f]).all (fun f => f.2.digest != g.2.digest || f.1.optional) =
            (rest.all (fun f => f.2.digest != g.2.digest || f.1.optional) &&
              (f.2.digest != g.2.digest || f.1.optional)) := by simp
        split
        · next hc =>
          simp only [Bool.and_eq_true] at hc
          simp [hc]
        · next hc =>
          simp only [ih, united?, List.cons_append, hall, Option.some.injEq, Prod.mk.injEq,
            FieldHead.mk.injEq, and_true, true_and]
          rw [← Bool.and_assoc, Bool.eq_iff_iff, Bool.and_eq_true, Bool.and_eq_true]
          refine ⟨fun ho => ⟨Bool.and_eq_true_iff.2 ho, ?_⟩, fun ho => Bool.and_eq_true_iff.1 ho.1⟩
          by_cases hd : g.2.digest = f.2.digest
          · have hf : f.1.optional = true := by
              by_contra hf
              exact hc ⟨hd, Bool.and_eq_true_iff.2 ho, Bool.eq_false_iff.2 hf⟩
            simp [hf]
          · simp [bne_iff_ne, Ne.symm hd]
    · have hf : [f].filter (fun g => g.1.name == k) = [] := by simp [hk]
      rw [getElem?_absorb_of_ne hk, ih, hf, List.append_nil]

theorem mem_mergedFields :
    f ∈ mergedFields fs ↔ united? (fieldsNamed fs f.1.name) = some f := by
  rw [mergedFields, List.mem_map]
  constructor
  · rintro ⟨⟨k, v⟩, hv, rfl⟩
    rw [Std.ExtTreeMap.mem_toList_iff_getElem?_eq_some, getElem?_foldl_absorb] at hv
    obtain rfl := name_of_united? hv
    exact hv
  · refine fun h => ⟨(f.1.name, f), ?_, rfl⟩
    rw [Std.ExtTreeMap.mem_toList_iff_getElem?_eq_some, getElem?_foldl_absorb]
    exact h

theorem exists_of_mem_mergedFields (h : f ∈ mergedFields fs) :
    ∃ g ∈ fs, f.2 = g.2 ∧ f.1.name = g.1.name := by
  obtain ⟨g, hg, hfg⟩ := united?_eq_some (mem_mergedFields.1 h)
  exact ⟨g, (List.mem_filter.1 hg).1, hfg⟩

theorem rising_mergedFields (fs : List FieldTerm) :
    Rising (fun f => f.1.name) (mergedFields fs) := by
  rw [mergedFields, Rising, List.pairwise_map]
  refine (Rising.of_toList _).imp_of_mem fun {a b} ha hb h => ?_
  rw [Std.ExtTreeMap.mem_toList_iff_getElem?_eq_some, getElem?_foldl_absorb] at ha hb
  rw [name_of_united? ha, name_of_united? hb]
  exact h

/-- Merging does nothing to fields that are sorted. -/
theorem mergedFields_of_rising (h : Rising (fun f : FieldTerm => f.1.name) fs) :
    mergedFields fs = fs := by
  have hone {f : FieldTerm} (hf : f ∈ fs) : fieldsNamed fs f.1.name = [f] := by
    refine Rising.eq_of_mem_iff (h.filter _) (List.pairwise_singleton _ _) fun g => ?_
    rw [fieldsNamed, List.mem_filter, List.mem_singleton, beq_iff_eq]
    exact ⟨fun hg => h.eq_of_key_eq hg.1 hf hg.2, fun hg => ⟨hg ▸ hf, hg ▸ rfl⟩⟩
  have hself {f : FieldTerm} (hf : f ∈ fs) : united? (fieldsNamed fs f.1.name) = some f := by
    rw [hone hf]
    simp [united?]
  refine (rising_mergedFields fs).eq_of_mem_iff h fun f => ?_
  rw [mem_mergedFields]
  refine ⟨fun hf => ?_, hself⟩
  obtain ⟨g, hg, -, hn⟩ := united?_eq_some hf
  have hg := (List.mem_filter.1 hg).1
  rw [hn, hself hg] at hf
  exact Option.some.inj hf ▸ hg

end Folding

end TypeAtlas
