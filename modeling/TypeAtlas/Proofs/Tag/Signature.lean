import Mathlib.Data.List.Basic
import TypeAtlas.Proofs.Json.Unambiguous
import TypeAtlas.Tag.Reading

/-! # Signatures of vocabularies

A signature lists the names of a vocabulary, each with its arity. Vocabularies with the same signature
read every comment alike, provided that no extra name holds the separator and that none replaces a
disabled core tag whose payload is optional, as the payload of every extra name is.
-/

namespace TypeAtlas

namespace Text

variable {sep : Char} {cs rest : List Char}

theorem splitAt_of_not_mem (h : sep ∉ cs) : splitAt sep cs = [cs] := by
  induction cs with
  | nil => rfl
  | cons c cs ih =>
    obtain ⟨hc, hcs⟩ := not_or.1 (mt List.mem_cons.2 h)
    rw [splitAt, if_neg (Ne.symm hc), ih hcs]

theorem splitAt_append (h : sep ∉ cs) :
    splitAt sep (cs ++ sep :: rest) = cs :: splitAt sep rest := by
  induction cs with
  | nil => rw [List.nil_append, splitAt, if_pos rfl]
  | cons c cs ih =>
    obtain ⟨hc, hcs⟩ := not_or.1 (mt List.mem_cons.2 h)
    rw [List.cons_append, splitAt, if_neg (Ne.symm hc), ih hcs]

theorem splitAt_commaJoin {p : List Char} {ps : List (List Char)} (h : ∀ q ∈ p :: ps, ',' ∉ q) :
    splitAt ',' (Json.commaJoin (p :: ps)) = p :: ps := by
  induction ps generalizing p with
  | nil => simpa [Json.commaJoin] using splitAt_of_not_mem (h p List.mem_cons_self)
  | cons q ps ih =>
    obtain ⟨hp, hps⟩ := List.forall_mem_cons.1 h
    change splitAt ',' (p ++ ',' :: Json.commaJoin (q :: ps)) = _
    rw [splitAt_append hp, ih hps]

end Text

theorem Json.commaJoin_inj {ps qs : List (List Char)} (hp : ∀ p ∈ ps, p ≠ [] ∧ ',' ∉ p)
    (hq : ∀ q ∈ qs, q ≠ [] ∧ ',' ∉ q) (h : commaJoin ps = commaJoin qs) : ps = qs := by
  cases ps with
  | nil =>
    cases qs with
    | nil => rfl
    | cons q qs => exact absurd (List.append_eq_nil_iff.1 h.symm).1 (hq q List.mem_cons_self).1
  | cons p ps =>
    cases qs with
    | nil => exact absurd (List.append_eq_nil_iff.1 h).1 (hp p List.mem_cons_self).1
    | cons q qs =>
      rw [← Text.splitAt_commaJoin fun x hx => (hp x hx).2, h,
        Text.splitAt_commaJoin fun x hx => (hq x hx).2]

theorem CoreTag.name_inj {t u : CoreTag} (h : t.name = u.name) : t = u := by
  have ht : ∀ t : CoreTag, ofName? t.name = some t := by
    intro t
    cases t <;> decide
  have hu := ht u
  rw [← h, ht t] at hu
  exact Option.some.inj hu

theorem CoreTag.comma_not_mem_name (t : CoreTag) : ',' ∉ t.name.toList := by
  cases t <;> decide

theorem Arity.name_inj {x y : Arity} (h : x.name = y.name) : x = y := by
  revert h
  cases x <;> cases y <;> decide

theorem Arity.not_structural (x : Arity) : ∀ c ∈ x.name.toList, c ∉ Datum.structural := by
  have h : x.name.toList.all fun c => c ∉ Datum.structural := by cases x <;> decide
  simpa using h

namespace Vocabulary

variable {v w : Vocabulary} {name : String} {g : Grammar}

/-- The extra names of a vocabulary can be told apart in its signature. -/
structure Separable (v : Vocabulary) : Prop where
  comma : ∀ name ∈ v.extra, ',' ∉ name.toList
  /-- An extra name reads its payload as an optional text, which a core tag of that arity does not. -/
  enabled : ∀ t : CoreTag, t.name ∈ v.extra → t.arity = .optional → t ∈ v.core

theorem mem_sortedNames {names : List String} : name ∈ sortedNames names ↔ name ∈ names := by
  have h : ∀ (names acc : List String),
      name ∈ names.foldl (fun acc s => if acc.contains s then acc else s :: acc) acc ↔
        name ∈ acc ∨ name ∈ names := by
    intro names
    induction names with
    | nil => simp
    | cons s names ih =>
      intro acc
      rw [List.foldl_cons, ih]
      split
      · next hs =>
        have hs : s ∈ acc := by simpa using hs
        simp only [List.mem_cons]
        constructor
        · exact Or.imp_right .inr
        · rintro (h | rfl | h)
          · exact .inl h
          · exact .inl hs
          · exact .inr h
      · simp only [List.mem_cons, or_assoc, or_left_comm]
  rw [sortedNames, List.mem_mergeSort, h]
  simp

theorem mem_names : name ∈ v.names ↔ ∃ g, v.get? name = some g := by
  rw [names, mem_sortedNames, List.mem_append, List.mem_map, get?]
  cases hf : v.core.find? fun t => t.name == name with
  | some t =>
    have ht : t.name = name := by simpa using List.find?_some hf
    simpa using .inl ⟨t, List.mem_of_find?_eq_some hf, ht⟩
  | none =>
    have hcore : ¬ ∃ t ∈ v.core, t.name = name := by simpa using hf
    simp [hcore]

theorem core_or_extra (h : v.get? name = some g) :
    (∃ t ∈ v.core, t.name = name ∧ g = .core t) ∨
      name ∈ v.extra ∧ (∀ t ∈ v.core, t.name ≠ name) ∧ g = .freeForm := by
  unfold get? at h
  split at h
  · next t ht =>
    exact .inl ⟨t, List.mem_of_find?_eq_some ht, by simpa using List.find?_some ht,
      (Option.some.inj h).symm⟩
  · next hnone =>
    obtain ⟨hextra, hg⟩ := Option.ite_none_right_eq_some.1 h
    exact .inr ⟨by simpa using hextra, by simpa using hnone, (Option.some.inj hg).symm⟩

/-- A name with its arity, as a signature lists it. -/
def entry (v : Vocabulary) (name : String) : String :=
  name ++ ":" ++ ((v.get? name).map fun g => g.arity.name).getD ""

theorem toList_entry (h : v.get? name = some g) :
    (v.entry name).toList = name.toList ++ ':' :: g.arity.name.toList := by
  simp [entry, h]

theorem Separable.comma_not_mem (hv : v.Separable) (h : v.get? name = some g) :
    ',' ∉ name.toList := by
  rcases core_or_extra h with ⟨t, -, rfl, -⟩ | ⟨hextra, -⟩
  · exact t.comma_not_mem_name
  · exact hv.comma name hextra

theorem Separable.entry_spec (hv : v.Separable) {p : List Char}
    (h : p ∈ (v.names.map v.entry).map String.toList) : p ≠ [] ∧ ',' ∉ p := by
  rw [List.map_map] at h
  obtain ⟨name, hname, rfl⟩ := List.mem_map.1 h
  obtain ⟨g, hg⟩ := mem_names.1 hname
  rw [Function.comp_apply, toList_entry hg]
  have hcomma := hv.comma_not_mem hg
  have harity : ',' ∉ g.arity.name.toList := fun h => g.arity.not_structural ',' h (by decide)
  constructor
  · simp
  · simp [hcomma, harity]

/-- The name and the arity can be read off an entry: no arity holds a colon. -/
theorem eq_of_entry_eq {name' : String} {g' : Grammar} (hg : v.get? name = some g)
    (hg' : w.get? name' = some g') (h : v.entry name = w.entry name') :
    name = name' ∧ g.arity = g'.arity := by
  have h : name.toList ++ ':' :: g.arity.name.toList = name'.toList ++ ':' :: g'.arity.name.toList := by
    rw [← toList_entry hg, ← toList_entry hg', h]
  have hrev := congrArg List.reverse h
  simp only [List.reverse_append, List.reverse_cons, List.append_assoc, List.singleton_append] at hrev
  obtain ⟨harity, hname⟩ := Json.append_inj_of_follows (by simpa using g.arity.not_structural)
    (by simpa using g'.arity.not_structural) (Json.follows_cons (by decide) _)
    (Json.follows_cons (by decide) _) hrev
  simp only [List.reverse_inj, List.cons.injEq, true_and, String.toList_inj] at harity hname
  exact ⟨hname, Arity.name_inj harity⟩

/-- Vocabularies with the same signature recognise the same names, with the same arities. -/
theorem Separable.exists_get (hv : v.Separable) (hw : w.Separable) (h : v.signature = w.signature)
    (hg : v.get? name = some g) : ∃ g', w.get? name = some g' ∧ g'.arity = g.arity := by
  have hjoin : Text.join "," (v.names.map v.entry) = Text.join "," (w.names.map w.entry) := h
  have hentries : (v.names.map v.entry).map String.toList = (w.names.map w.entry).map String.toList := by
    apply Json.commaJoin_inj (fun _ => hv.entry_spec) fun _ => hw.entry_spec
    rw [← Json.toList_join, ← Json.toList_join, hjoin]
  have hentries : v.names.map v.entry = w.names.map w.entry :=
    List.map_injective_iff.2 (fun _ _ => String.toList_inj.1) hentries
  have hmem : v.entry name ∈ w.names.map w.entry := by
    rw [← hentries]
    exact List.mem_map_of_mem (mem_names.2 ⟨g, hg⟩)
  obtain ⟨name', hname', hentry⟩ := List.mem_map.1 hmem
  obtain ⟨g', hg'⟩ := mem_names.1 hname'
  obtain ⟨rfl, harity⟩ := eq_of_entry_eq hg' hg hentry
  exact ⟨g', hg', harity⟩

/-- A name that both recognise, with the same arity, is read by the same grammar: the only grammar of
extra names has the arity of core tags that must then be enabled. -/
theorem Separable.grammar_eq (hv : v.Separable) (hw : w.Separable) {g' : Grammar}
    (hg : v.get? name = some g) (hg' : w.get? name = some g') (h : g'.arity = g.arity) : g' = g := by
  rcases core_or_extra hg with ⟨t, ht, rfl, rfl⟩ | ⟨hextra, hfree, rfl⟩
  · rcases core_or_extra hg' with ⟨t', -, hname, rfl⟩ | ⟨hextra, hfree, rfl⟩
    · rw [CoreTag.name_inj hname]
    · exact absurd rfl (hfree t (hw.enabled t hextra h.symm))
  · rcases core_or_extra hg' with ⟨t', -, rfl, rfl⟩ | ⟨-, -, rfl⟩
    · exact absurd rfl (hfree t' (hv.enabled t' hextra h))
    · rfl

theorem Separable.get?_eq (hv : v.Separable) (hw : w.Separable) (h : v.signature = w.signature) :
    v.get? = w.get? := by
  funext name
  cases hg : v.get? name with
  | some g =>
    obtain ⟨g', hg', harity⟩ := hv.exists_get hw h hg
    rw [hg', hv.grammar_eq hw hg hg' harity]
  | none =>
    cases hg' : w.get? name with
    | none => rfl
    | some g' =>
      obtain ⟨g, hsome, -⟩ := hw.exists_get hv h.symm hg'
      rw [hg] at hsome
      cases hsome

end Vocabulary

/-- A reading depends on a vocabulary only through the grammars of names. -/
theorem readTags_congr {v w : Vocabulary} (h : v.get? = w.get?) (comment entity field : Option String)
    (location : Option Place) :
    readTags comment v entity field location = readTags comment w entity field location := by
  have hstep : TagReading.step v = TagReading.step w := by
    funext report s raw
    simp only [TagReading.step, TagReading.verdict, h]
  simp only [readTags, hstep]

end TypeAtlas
