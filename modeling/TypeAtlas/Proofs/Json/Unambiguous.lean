import Mathlib.Data.List.Basic
import Mathlib.Tactic.SplitIfs
import TypeAtlas.Json.Reader
import TypeAtlas.Json.Writer
import TypeAtlas.Proofs.Number.Written

/-! # Unambiguous documents

The reader of quoted texts takes back what the writer puts between the quotes, whatever follows. The
compact text of a value determines the value, up to the order of fields and up to numbers that are not
finite, which are written as null. Main statement: `canonical_eq_of_compact_eq`.
-/

namespace TypeAtlas.Json

/-! ## Quoted texts -/

theorem readUnicode?_hexPadded {n : Nat} (hn : n < 32) (rest : List Char) :
    readUnicode? (Text.hexPadded 4 n ++ rest) = some (Char.ofNat n, rest) := by
  have h : ∀ n < 32, ∃ a b c d, Text.hexPadded 4 n = [a, b, c, d] ∧
      hexValue? [a, b, c, d] = some n := by
    intro n hn
    refine ⟨_, _, _, _, rfl, ?_⟩
    revert n
    decide
  obtain ⟨a, b, c, d, hd, hv⟩ := h n hn
  simp [hd, readUnicode?, hv, show n < 55296 by omega]

theorem readText?_escape (fuel : Nat) (acc : List Char) (c : Char) (rest : List Char) :
    readText? (fuel + 1) acc (escape c ++ rest) = readText? fuel (c :: acc) rest := by
  unfold escape
  split_ifs with h₁ h₂ h₃ h₄ h₅ h₆ h₇ h₈
  · subst h₁; rfl
  · subst h₂; rfl
  · subst h₃; rfl
  · subst h₄; rfl
  · subst h₅; rfl
  · obtain rfl : c = Char.ofNat 8 := by rw [← h₆, Char.ofNat_toNat]
    rfl
  · obtain rfl : c = Char.ofNat 12 := by rw [← h₇, Char.ofNat_toNat]
    rfl
  · simp only [List.cons_append, readText?, readUnicode?_hexPadded h₈, Char.ofNat_toNat]
    rfl
  · rw [List.singleton_append, readText?]
    · simp [h₂, h₈]
    · exact h₁
    · rintro _ rfl; exact absurd rfl h₂
    · rintro _ _ rfl; exact absurd rfl h₂

theorem readText?_flatMap_escape (s : List Char) (fuel : Nat) (acc rest : List Char) :
    readText? (s.length + 1 + fuel) acc (s.flatMap escape ++ '"' :: rest) =
      some (String.ofList (acc.reverse ++ s), rest) := by
  induction s generalizing acc with
  | nil => simp [Nat.add_comm 1 fuel, readText?]
  | cons c s ih =>
    have hf : (c :: s).length + 1 + fuel = (s.length + 1 + fuel) + 1 := by
      simp only [List.length_cons]; omega
    rw [hf, List.flatMap_cons, List.append_assoc, readText?_escape, ih]
    simp

theorem toList_quote (s : String) :
    (quote s).toList = '"' :: (s.toList.flatMap escape ++ ['"']) := by
  simp [quote]

/-- A quoted text ends where it says, and determines the text. -/
theorem quote_append_inj {s t : String} {r r' : List Char}
    (h : (quote s).toList ++ r = (quote t).toList ++ r') : s = t ∧ r = r' := by
  simp only [toList_quote, List.cons_append, List.append_assoc, List.nil_append,
    List.cons.injEq, true_and] at h
  have hs := readText?_flatMap_escape s.toList t.toList.length [] r
  have ht := readText?_flatMap_escape t.toList s.toList.length [] r'
  rw [h, show s.toList.length + 1 + t.toList.length = t.toList.length + 1 + s.toList.length by omega,
    ht] at hs
  simpa [eq_comm] using hs

end TypeAtlas.Json

namespace TypeAtlas

/-! ## Values -/

namespace Datum

mutual

/-- The value with the fields of records in order, and null for a number that is not finite. -/
def canonical : Datum → Datum
  | .number n => if n.isFinite then .number n else .null
  | .list items => .list (canonicalList items)
  | .record fields => .record (Json.sortFields (canonicalFields fields))
  | d => d

def canonicalList : List Datum → List Datum
  | [] => []
  | x :: xs => canonical x :: canonicalList xs

def canonicalFields : List (String × Datum) → List (String × Datum)
  | [] => []
  | (k, x) :: xs => (k, canonical x) :: canonicalFields xs

end

theorem canonicalList_eq_map (xs : List Datum) : canonicalList xs = xs.map canonical := by
  induction xs with
  | nil => rfl
  | cons x xs ih => rw [canonicalList, ih, List.map_cons]

theorem canonicalFields_eq_map (fs : List (String × Datum)) :
    canonicalFields fs = fs.map fun f => (f.1, f.2.canonical) := by
  induction fs with
  | nil => rfl
  | cons f fs ih => rw [canonicalFields, ih, List.map_cons]

/-- The text of a value that is neither a text nor a container. -/
def atom? : Datum → Option String
  | .null => some "null"
  | .bool b => some (if b then "true" else "false")
  | .number n => some n.document
  | _ => none

theorem canonical_number_inj {m n : Number} (h : m.document = n.document) :
    (Datum.number m).canonical = (Datum.number n).canonical := by
  have hm := m.document_eq_null
  have hn := n.document_eq_null
  rw [h, hn] at hm
  cases hf : n.isFinite with
  | true =>
    have hf' : m.isFinite = true := by simpa [hf] using hm
    rw [Number.document_inj hf' hf h]
  | false =>
    have hf' : m.isFinite = false := by simpa [hf] using hm
    simp [canonical, hf, hf']

theorem canonical_number_of_document_eq_null {n : Number} (h : n.document = "null") :
    (Datum.number n).canonical = .null := by
  simp [canonical, n.document_eq_null.1 h]

theorem atom?_inj {v w : Datum} {x : String} (hv : v.atom? = some x) (hw : w.atom? = some x) :
    v.canonical = w.canonical := by
  cases v <;> cases w <;> simp only [atom?, Option.some.injEq, reduceCtorEq] at hv hw
  case null.null => rfl
  case null.bool b => subst hv; cases b <;> simp at hw
  case null.number n => exact (canonical_number_of_document_eq_null (hw.trans hv.symm)).symm
  case bool.null b => subst hw; cases b <;> simp at hv
  case bool.bool b c => subst hv; cases b <;> cases c <;> first | rfl | simp at hw
  case bool.number b n => exact absurd (hw.trans hv.symm) (n.document_ne_bool b)
  case number.null n => exact canonical_number_of_document_eq_null (hv.trans hw.symm)
  case number.bool n b => exact absurd (hv.trans hw.symm) (n.document_ne_bool b)
  case number.number m n => exact canonical_number_inj (hv.trans hw.symm)

def structural : List Char := ['"', ',', ':', '[', ']', '\x7b', '\x7d']

theorem isNumeral_of_mem_atom {v : Datum} {x : String} (h : v.atom? = some x) {c : Char}
    (hc : c ∈ x.toList) : isNumeral c := by
  cases v <;> simp only [atom?, Option.some.injEq, reduceCtorEq] at h <;> subst h
  case null =>
    have hc : c = 'n' ∨ c = 'u' ∨ c = 'l' := by simpa using hc
    rcases hc with rfl | rfl | rfl <;> rfl
  case bool b =>
    cases b with
    | false =>
      have hc : c = 'f' ∨ c = 'a' ∨ c = 'l' ∨ c = 's' ∨ c = 'e' := by simpa using hc
      rcases hc with rfl | rfl | rfl | rfl | rfl <;> rfl
    | true =>
      have hc : c = 't' ∨ c = 'r' ∨ c = 'u' ∨ c = 'e' := by simpa using hc
      rcases hc with rfl | rfl | rfl | rfl <;> rfl
  case number n => exact n.isNumeral_of_mem_document hc

theorem not_structural_of_mem_atom {v : Datum} {x : String} (h : v.atom? = some x) {c : Char}
    (hc : c ∈ x.toList) : c ∉ structural := by
  have hs : ∀ c ∈ structural, isNumeral c = false := by simp [structural, isNumeral]
  intro hm
  have hn := isNumeral_of_mem_atom h hc
  simp [hs c hm] at hn

theorem atom_ne_nil {v : Datum} {x : String} (h : v.atom? = some x) : x.toList ≠ [] := by
  cases v <;> simp only [atom?, Option.some.injEq, reduceCtorEq] at h <;> subst h
  case null => decide
  case bool b => cases b <;> decide
  case number n => exact n.document_ne_empty

end Datum

namespace Json

/-! ## Fields in order -/

section Sorted

variable {α β : Type} {f : String × α} {fs : List (String × α)}

theorem insertField_perm (f : String × α) (fs : List (String × α)) :
    (insertField f fs).Perm (f :: fs) := by
  induction fs with
  | nil => rfl
  | cons g fs ih =>
    rw [insertField]
    split
    · rfl
    · exact (ih.cons g).trans (.swap f g fs)

theorem sortFields_perm (fs : List (String × α)) : (sortFields fs).Perm fs := by
  induction fs with
  | nil => rfl
  | cons f fs ih => exact (insertField_perm f _).trans (ih.cons f)

@[simp] theorem mem_sortFields : f ∈ sortFields fs ↔ f ∈ fs := (sortFields_perm fs).mem_iff

@[simp] theorem length_sortFields : (sortFields fs).length = fs.length := (sortFields_perm fs).length_eq

theorem pairwise_insertField (h : fs.Pairwise fun g k => g.1 ≤ k.1) :
    (insertField f fs).Pairwise fun g k => g.1 ≤ k.1 := by
  induction fs with
  | nil => exact List.pairwise_singleton _ _
  | cons g fs ih =>
    obtain ⟨hg, hfs⟩ := List.pairwise_cons.1 h
    rw [insertField]
    split
    · next hle =>
      refine List.pairwise_cons.2 ⟨fun k hk => ?_, h⟩
      rcases List.mem_cons.1 hk with rfl | hk
      · exact hle
      · exact String.le_trans hle (hg k hk)
    · next hgt =>
      refine List.pairwise_cons.2 ⟨fun k hk => ?_, ih hfs⟩
      rcases List.mem_cons.1 ((insertField_perm f fs).mem_iff.1 hk) with rfl | hk
      · exact (String.le_total _ _).resolve_left hgt
      · exact hg k hk

theorem pairwise_sortFields (fs : List (String × α)) : (sortFields fs).Pairwise fun g k => g.1 ≤ k.1 := by
  induction fs with
  | nil => exact .nil
  | cons f fs ih => exact pairwise_insertField ih

theorem sortFields_of_pairwise (h : fs.Pairwise fun g k => g.1 ≤ k.1) : sortFields fs = fs := by
  induction fs with
  | nil => rfl
  | cons f fs ih =>
    obtain ⟨hf, hfs⟩ := List.pairwise_cons.1 h
    change insertField f (sortFields fs) = f :: fs
    rw [ih hfs]
    cases fs with
    | nil => rfl
    | cons g fs => exact if_pos (hf g List.mem_cons_self)

theorem insertField_map (φ : α → β) (f : String × α) (fs : List (String × α)) :
    insertField (f.1, φ f.2) (fs.map fun p => (p.1, φ p.2)) =
      (insertField f fs).map fun p => (p.1, φ p.2) := by
  induction fs with
  | nil => rfl
  | cons g fs ih =>
    simp only [List.map_cons, insertField, ih]
    split <;> rfl

theorem sortFields_map (φ : α → β) (fs : List (String × α)) :
    sortFields (fs.map fun p => (p.1, φ p.2)) = (sortFields fs).map fun p => (p.1, φ p.2) := by
  induction fs with
  | nil => rfl
  | cons f fs ih =>
    change insertField _ (sortFields (fs.map _)) = (insertField f (sortFields fs)).map _
    rw [ih, insertField_map φ]

end Sorted

/-! ## Written forms -/

/-- Texts one after the other, with a comma between neighbours. -/
def commaJoin : List (List Char) → List Char
  | [] => []
  | p :: ps => p ++ ps.flatMap fun q => ',' :: q

theorem toList_join (ps : List String) :
    (Text.join "," ps).toList = commaJoin (ps.map String.toList) := by
  have h : ∀ (ps : List String) (acc : String),
      (ps.foldl (fun acc t => acc ++ "," ++ t) acc).toList =
        acc.toList ++ (ps.map String.toList).flatMap fun q => ',' :: q := by
    intro ps
    induction ps with
    | nil => simp
    | cons p ps ih => intro acc; simp [ih]
  cases ps with
  | nil => rfl
  | cons p ps => exact h ps p

def fieldText (name : String) (value : List Char) : List Char :=
  (quote name).toList ++ ':' :: value

/-- The compact text of a value, without regard to depth. -/
inductive Written : Datum → List Char → Prop
  | atom {v : Datum} {x : String} (h : v.atom? = some x) : Written v x.toList
  | text (s : String) : Written (.text s) (quote s).toList
  | list (zs : List (Datum × List Char)) (h : ∀ z ∈ zs, Written z.1 z.2) :
    Written (.list (zs.map Prod.fst)) ('[' :: (commaJoin (zs.map Prod.snd) ++ [']']))
  | record (fs : List (String × Datum)) (zs : List (String × Datum × List Char))
    (h : ∀ z ∈ zs, Written z.2.1 z.2.2) (hs : sortFields fs = zs.map fun z => (z.1, z.2.1)) :
    Written (.record fs)
      ('\x7b' :: (commaJoin (zs.map fun z => fieldText z.1 z.2.2) ++ ['\x7d']))

theorem toList_enclose (level : Nat) (opening closing : Char) (ps : List String) :
    (Style.compact.enclose level (String.singleton opening) (String.singleton closing) ps).toList =
      opening :: (commaJoin (ps.map String.toList) ++ [closing]) := by
  simp [Style.enclose, toList_join]

mutual

theorem written_of_write {level : Nat} : ∀ {v : Datum} {x : String},
    write .compact level v = .ok x → Written v x.toList
  | .null, x, h => by cases h; exact .atom rfl
  | .bool b, x, h => by cases h; exact .atom rfl
  | .number (.int n), x, h => by
    rw [write] at h
    split at h
    · cases h; exact .atom rfl
    · cases h
  | .number (.float y), x, h => by cases h; exact .atom rfl
  | .text s, x, h => by cases h; exact .text s
  | .moment s, x, h => by cases h
  | .list [], x, h => by cases h; exact .list [] (by simp)
  | .list (v :: vs), x, h => by
    rw [write] at h
    split at h
    · cases h
    · simp only [bind, Except.bind, pure, Except.pure] at h
      split at h
      · cases h
      · rename_i ps hps
        cases h
        obtain ⟨zs, hz, hps, hw⟩ := written_of_writeList hps
        rw [hz, show "[" = String.singleton '[' from rfl, show "]" = String.singleton ']' from rfl,
          toList_enclose, hps, List.map_map]
        have := Written.list (zs.map fun z => (z.1, z.2.toList)) (by
          intro _ hm
          obtain ⟨z, hz, rfl⟩ := List.mem_map.1 hm
          exact hw z hz)
        simpa [Function.comp_def] using this
  | .record [], x, h => by cases h; exact .record [] [] (by simp) (by simp [sortFields])
  | .record (f :: fs), x, h => by
    rw [write] at h
    split at h
    · cases h
    · simp only [bind, Except.bind, pure, Except.pure] at h
      split at h
      · cases h
      · rename_i ps hps
        cases h
        obtain ⟨zs, hz, hps, hw⟩ := written_of_writeFields hps
        rw [hz, hps, show "\x7b" = String.singleton '\x7b' from rfl,
          show "\x7d" = String.singleton '\x7d' from rfl, toList_enclose, sortFields_map]
        have := Written.record (zs.map fun z => (z.1, z.2.1))
          ((sortFields zs).map fun z => (z.1, z.2.1, z.2.2.toList)) (by
            intro _ hm
            obtain ⟨z, hz, rfl⟩ := List.mem_map.1 hm
            exact hw z (mem_sortFields.1 hz))
          (by simp [sortFields_map Prod.fst])
        simpa [Function.comp_def, fieldText, Style.colon] using this

theorem written_of_writeList {level : Nat} : ∀ {vs : List Datum} {ps : List String},
    writeList .compact level vs = .ok ps → ∃ zs : List (Datum × String),
      vs = zs.map Prod.fst ∧ ps = zs.map Prod.snd ∧ ∀ z ∈ zs, Written z.1 z.2.toList
  | [], ps, h => by cases h; exact ⟨[], rfl, rfl, by simp⟩
  | v :: vs, ps, h => by
    simp only [writeList, bind, Except.bind, pure, Except.pure] at h
    split at h
    · cases h
    · rename_i p hp
      split at h
      · cases h
      · rename_i qs hqs
        cases h
        obtain ⟨zs, rfl, rfl, hw⟩ := written_of_writeList hqs
        exact ⟨(v, p) :: zs, rfl, rfl, List.forall_mem_cons.2 ⟨written_of_write hp, hw⟩⟩

theorem written_of_writeFields {level : Nat} : ∀ {fs : List (String × Datum)}
    {ps : List (String × String)}, writeFields .compact level fs = .ok ps →
      ∃ zs : List (String × Datum × String), fs = zs.map (fun z => (z.1, z.2.1)) ∧
        ps = zs.map (fun z => (z.1, z.2.2)) ∧ ∀ z ∈ zs, Written z.2.1 z.2.2.toList
  | [], ps, h => by cases h; exact ⟨[], rfl, rfl, by simp⟩
  | (k, v) :: fs, ps, h => by
    simp only [writeFields, bind, Except.bind, pure, Except.pure] at h
    split at h
    · cases h
    · rename_i p hp
      split at h
      · cases h
      · rename_i qs hqs
        cases h
        obtain ⟨zs, rfl, rfl, hw⟩ := written_of_writeFields hqs
        exact ⟨(k, v, p) :: zs, rfl, rfl, List.forall_mem_cons.2 ⟨written_of_write hp, hw⟩⟩

end

/-! ## Reading back -/

/-- What may come after a value in a document. -/
def Follows (r : List Char) : Prop := ∀ c ∈ r.head?, c ∈ Datum.structural

theorem follows_nil : Follows [] := by simp [Follows]

theorem follows_cons {c : Char} (h : c ∈ Datum.structural) (r : List Char) : Follows (c :: r) := by
  simpa [Follows] using h

/-- Characters that are not structural end where the first structural one stands. -/
theorem append_inj_of_follows {cs ds r s : List Char} (hc : ∀ c ∈ cs, c ∉ Datum.structural)
    (hd : ∀ c ∈ ds, c ∉ Datum.structural) (hr : Follows r) (hs : Follows s)
    (h : cs ++ r = ds ++ s) : cs = ds ∧ r = s := by
  induction cs generalizing ds with
  | nil =>
    cases ds with
    | nil => exact ⟨rfl, h⟩
    | cons d ds => exact absurd (hr d (by simpa using congrArg List.head? h)) (hd d (by simp))
  | cons c cs ih =>
    cases ds with
    | nil => exact absurd (hs c (by simpa using congrArg List.head? h.symm)) (hc c (by simp))
    | cons d ds =>
      simp only [List.cons_append, List.cons.injEq] at h
      obtain ⟨rfl, h⟩ := h
      obtain ⟨rfl, rfl⟩ := ih (fun c hm => hc c (by simp [hm])) (fun c hm => hd c (by simp [hm])) h
      exact ⟨rfl, rfl⟩

theorem commaJoin_append_inj {f : α → List Char} {g : α → β} {close : Char} {P : α → Prop}
    (hclose : close ∈ Datum.structural) (hcomma : close ≠ ',')
    (hopen : ∀ w, P w → ∀ r s, f w ++ r ≠ close :: s) {zs ws : List α} (hzs : ∀ z ∈ zs, P z)
    (hws : ∀ w ∈ ws, P w)
    (ih : ∀ z ∈ zs, ∀ w, P w → ∀ r s, Follows r → Follows s → f z ++ r = f w ++ s →
      g z = g w ∧ r = s) {r s : List Char}
    (h : commaJoin (zs.map f) ++ close :: r = commaJoin (ws.map f) ++ close :: s) :
    zs.map g = ws.map g ∧ r = s := by
  have tails : ∀ {zs ws : List α}, (∀ w ∈ ws, P w) →
      (∀ z ∈ zs, ∀ w, P w → ∀ r s, Follows r → Follows s → f z ++ r = f w ++ s →
        g z = g w ∧ r = s) →
      (zs.map f).flatMap (fun q => ',' :: q) ++ close :: r =
        (ws.map f).flatMap (fun q => ',' :: q) ++ close :: s → zs.map g = ws.map g ∧ r = s := by
    intro zs
    induction zs with
    | nil =>
      intro ws _ _ h
      cases ws with
      | nil => simpa using h
      | cons w ws => simp [hcomma] at h
    | cons z zs ihz =>
      intro ws hws ih h
      cases ws with
      | nil => simp [hcomma.symm] at h
      | cons w ws =>
        simp only [List.map_cons, List.flatMap_cons, List.cons_append, List.cons.injEq, true_and,
          List.append_assoc] at h
        have follows : ∀ (xs : List α) r, Follows
            ((xs.map f).flatMap (fun q => ',' :: q) ++ close :: r) := by
          intro xs r
          cases xs with
          | nil => exact follows_cons hclose r
          | cons x xs => exact follows_cons (by decide) _
        obtain ⟨hg, h⟩ := ih z (by simp) w (hws w (by simp)) _ _ (follows zs r) (follows ws s) h
        obtain ⟨hgs, hrs⟩ := ihz (fun w hm => hws w (by simp [hm]))
          (fun z hm => ih z (by simp [hm])) h
        exact ⟨by simp [hg, hgs], hrs⟩
  cases zs with
  | nil =>
    cases ws with
    | nil => simpa [commaJoin] using h
    | cons w ws =>
      simp only [List.map_nil, commaJoin, List.nil_append, List.map_cons, List.append_assoc] at h
      exact absurd h.symm (hopen w (hws w (by simp)) _ _)
  | cons z zs =>
    cases ws with
    | nil =>
      simp only [List.map_nil, commaJoin, List.nil_append, List.map_cons, List.append_assoc] at h
      exact absurd h (hopen z (hzs z (by simp)) _ _)
    | cons w ws =>
      have h' : ((z :: zs).map f).flatMap (fun q => ',' :: q) ++ close :: r =
          ((w :: ws).map f).flatMap (fun q => ',' :: q) ++ close :: s := by
        simpa [commaJoin] using h
      exact tails hws ih h'

theorem atom_append_ne {v : Datum} {x : String} {c : Char} {r s : List Char}
    (h : v.atom? = some x) (hc : c ∈ Datum.structural) : x.toList ++ r ≠ c :: s := by
  intro he
  cases hx : x.toList with
  | nil => exact Datum.atom_ne_nil h hx
  | cons d ds =>
    rw [hx, List.cons_append, List.cons.injEq] at he
    exact Datum.not_structural_of_mem_atom h (by simp [hx, he.1]) hc

theorem Written.append_ne {v : Datum} {cs r s : List Char} {c : Char} (h : Written v cs)
    (hc : c = ']' ∨ c = '\x7d') : cs ++ r ≠ c :: s := by
  cases h with
  | atom ha =>
    exact atom_append_ne ha (by rcases hc with rfl | rfl <;> decide)
  | text t => rcases hc with rfl | rfl <;> simp [toList_quote]
  | list zs _ => rcases hc with rfl | rfl <;> simp
  | record fs zs _ _ => rcases hc with rfl | rfl <;> simp

/-- The text of a value ends where it says, and determines the value. -/
theorem Written.append_inj {v w : Datum} {cs ds r s : List Char} (hv : Written v cs)
    (hw : Written w ds) (hr : Follows r) (hs : Follows s) (h : cs ++ r = ds ++ s) :
    v.canonical = w.canonical ∧ r = s := by
  induction hv generalizing w ds r s with
  | @atom v x ha =>
    cases hw with
    | @atom w y hb =>
      obtain ⟨hxy, hrs⟩ := append_inj_of_follows (fun c => Datum.not_structural_of_mem_atom ha)
        (fun c => Datum.not_structural_of_mem_atom hb) hr hs h
      obtain rfl := String.toList_injective hxy
      exact ⟨Datum.atom?_inj ha hb, hrs⟩
    | text t => rw [toList_quote] at h; exact absurd h (atom_append_ne ha (by decide))
    | list zs _ => exact absurd h (atom_append_ne ha (by decide))
    | record fs zs _ _ => exact absurd h (atom_append_ne ha (by decide))
  | text t =>
    cases hw with
    | atom hb => rw [toList_quote] at h; exact absurd h.symm (atom_append_ne hb (by decide))
    | text u =>
      obtain ⟨rfl, rfl⟩ := quote_append_inj h
      exact ⟨rfl, rfl⟩
    | list zs _ => simp [toList_quote] at h
    | record fs zs _ _ => simp [toList_quote] at h
  | list zs hzs ih =>
    cases hw with
    | atom hb => exact absurd h.symm (atom_append_ne hb (by decide))
    | text u => simp [toList_quote] at h
    | list ws hws =>
      simp only [List.cons_append, List.append_assoc, List.cons.injEq, true_and,
        List.nil_append] at h
      obtain ⟨hg, rfl⟩ := commaJoin_append_inj (f := Prod.snd) (g := fun z => z.1.canonical)
        (P := fun z => Written z.1 z.2) (by decide) (by decide)
        (fun w hw r s => hw.append_ne (.inl rfl)) hzs hws
        (fun z hz w hw r s hr hs h => ih z hz hw hr hs h) h
      refine ⟨?_, rfl⟩
      simpa [Datum.canonical, Datum.canonicalList_eq_map, Function.comp_def] using hg
    | record fs zs _ _ => simp at h
  | record fs zs hzs hsort ih =>
    cases hw with
    | atom hb => exact absurd h.symm (atom_append_ne hb (by decide))
    | text u => simp [toList_quote] at h
    | list ws hws => simp at h
    | record gs ws hws hsort' =>
      simp only [List.cons_append, List.append_assoc, List.cons.injEq, true_and,
        List.nil_append] at h
      have hopen (w : String × Datum × List Char) (_ : Written w.2.1 w.2.2) (r s : List Char) :
          fieldText w.1 w.2.2 ++ r ≠ '\x7d' :: s := by simp [fieldText, toList_quote]
      have hfield : ∀ z ∈ zs, ∀ w : String × Datum × List Char, Written w.2.1 w.2.2 → ∀ r s,
          Follows r → Follows s → fieldText z.1 z.2.2 ++ r = fieldText w.1 w.2.2 ++ s →
            (z.1, z.2.1.canonical) = (w.1, w.2.1.canonical) ∧ r = s := by
        intro z hz w hw r s hr hs h
        rw [fieldText, fieldText, List.append_assoc, List.append_assoc] at h
        obtain ⟨hk, h⟩ := quote_append_inj h
        obtain ⟨hc, hrs⟩ := ih z hz hw hr hs (List.cons.inj h).2
        exact ⟨by rw [hk, hc], hrs⟩
      obtain ⟨hg, rfl⟩ := commaJoin_append_inj (by decide) (by decide) hopen hzs hws hfield h
      refine ⟨?_, rfl⟩
      simp only [Datum.canonical, Datum.canonicalFields_eq_map, sortFields_map Datum.canonical,
        hsort, hsort', List.map_map]
      exact congrArg Datum.record hg

/-- Values with the same compact text are the same up to the order of fields. -/
theorem canonical_eq_of_compact_eq {v w : Datum} {x : String} (hv : compact v = .ok x)
    (hw : compact w = .ok x) : v.canonical = w.canonical :=
  ((written_of_write hv).append_inj (written_of_write hw) follows_nil follows_nil rfl).1

end Json

end TypeAtlas
