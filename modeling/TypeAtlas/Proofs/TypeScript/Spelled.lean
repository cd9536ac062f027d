import Mathlib.Data.Bool.AllAny
import Mathlib.Data.List.Induction
import Mathlib.Data.Nat.Digits.Defs
import TypeAtlas.Proofs.Json.Numeral
import TypeAtlas.TypeScript.Describe

/-! # Spelled integers

The ways to write an integer as a literal type, and the integer that each of them stands for: in one of
four bases, with separators between the digits, and perhaps with a minus sign in front of it.
-/

namespace TypeAtlas.TypeScript

/-- The base in which an integer is written. -/
inductive Base where
  | decimal | hexadecimal | octal | binary
deriving DecidableEq

namespace Base

def radix : Base → ℕ
  | decimal => 10
  | hexadecimal => 16
  | octal => 8
  | binary => 2

/-- What announces the base, with a small or with a capital letter. -/
def mark (b : Base) (upper : Bool) : List Char :=
  match b with
  | decimal => []
  | hexadecimal => ['0', if upper then 'X' else 'x']
  | octal => ['0', if upper then 'O' else 'o']
  | binary => ['0', if upper then 'B' else 'b']

theorem radix_le (b : Base) : b.radix ≤ 16 := by cases b <;> decide

end Base

/-- The digits of all bases, in either case, by their value. -/
def digitValue (c : Char) : ℕ := "0123456789abcdef".toList.idxOf c.toLower

def digitsIn (radix : ℕ) (ds : List Char) : ℕ := Nat.ofDigits radix (ds.reverse.map digitValue)

@[simp] theorem digitsIn_append (radix : ℕ) (ds : List Char) (c : Char) :
    digitsIn radix (ds ++ [c]) = radix * digitsIn radix ds + digitValue c := by
  simp [digitsIn, Nat.ofDigits_cons, Nat.add_comm]

/-- A way to write an integer as a literal type. -/
structure IntegerLiteral where
  /-- The white space behind the minus sign, if there is one. -/
  minus : Option (List Char)
  base : Base
  /-- Whether the letter that announces the base is a capital. -/
  upper : Bool
  /-- The digits between the separators. -/
  groups : List (List Char)
  big : Bool
  isGap_of_mem : ∀ gap ∈ minus, ∀ c ∈ gap, isGap c
  groups_ne_nil : groups ≠ []
  group_ne_nil : ∀ g ∈ groups, g ≠ []
  digit_lt : ∀ c ∈ groups.flatten, digitValue c < base.radix
  /-- A decimal number starts with a zero only if it is zero. -/
  leading : base = .decimal → groups.flatten.head? = some '0' → groups = [['0']]

namespace IntegerLiteral

variable (w : IntegerLiteral)

def sign : List Char := match w.minus with
  | none => []
  | some gap => '-' :: gap

def mark : List Char := w.base.mark w.upper

def digits : List Char := w.groups.flatten

/-- The literal without its sign and its suffix. -/
def bare : List Char := w.mark ++ List.intercalate ['_'] w.groups

def suffix : List Char := if w.big then ['n'] else []

def text : String := String.ofList (w.sign ++ (w.bare ++ w.suffix))

def magnitude : ℕ := digitsIn w.base.radix w.digits

def value : ℤ := if w.minus.isSome then -w.magnitude else w.magnitude

end IntegerLiteral

/-! ## Characters -/

theorem of_isGap {P : Char → Prop} {c : Char} (h : isGap c)
    (hP : ∀ n ∈ 0xfeff :: 0x2060 :: 0x200b :: Text.blanks, P (Char.ofNat n)) : P c := by
  have hmem : c.toNat ∈ 0xfeff :: 0x2060 :: 0x200b :: Text.blanks := by
    simp only [isGap, Text.isBlank, Bool.or_eq_true, Bool.and_eq_true, List.contains_iff_mem] at h
    rcases h with ⟨h, -⟩ | h
    · exact List.mem_append_right [0xfeff, 0x2060, 0x200b] h
    · exact List.mem_append_left Text.blanks h
  rw [← Char.ofNat_toNat c]
  exact hP _ hmem

def hexDigits : List Char := "0123456789abcdefABCDEF".toList

theorem mem_hexDigits {c : Char} (h : digitValue c < 16) : c ∈ hexDigits := by
  have hlower : c.toLower ∈ "0123456789abcdef".toList := List.idxOf_lt_length_iff.1 h
  by_cases hupper : c.isUpper
  · have hrange : ∀ n ∈ List.range 26, (Char.ofNat (n + 65)).toLower ∈ "0123456789abcdef".toList →
        Char.ofNat (n + 65) ∈ hexDigits := by decide
    have hc : 65 ≤ c.toNat ∧ c.toNat ≤ 90 := of_decide_eq_true hupper
    have hback : Char.ofNat (c.toNat - 65 + 65) = c := by
      rw [Nat.sub_add_cancel hc.1, Char.ofNat_toNat]
    have hmem := hrange (c.toNat - 65) (List.mem_range.2 (by omega))
    rw [hback] at hmem
    exact hmem hlower
  · have hsame : c.toLower = c := by
      unfold Char.toLower
      split
      · next h => exact absurd (decide_eq_true h) hupper
      · rfl
    rw [hsame] at hlower
    exact List.mem_append_left "ABCDEF".toList hlower

theorem of_digitValue_lt_ten {P : Char → Prop} {c : Char} (h : digitValue c < 10)
    (hP : ∀ d ∈ "0123456789".toList, P d) : P c := by
  have hdecimal : ∀ d ∈ hexDigits, digitValue d < 10 → d ∈ "0123456789".toList :=
    List.all_iff_forall_prop.1 (by decide)
  exact hP c (hdecimal c (mem_hexDigits (by omega)) h)

theorem isDigit_of_digitValue_lt {c : Char} (h : digitValue c < 10) : c.isDigit :=
  of_digitValue_lt_ten (P := fun c => c.isDigit) h (List.all_iff_forall_prop.1 (by decide))

theorem digitChar_digitValue {c : Char} (h : digitValue c < 10) : Nat.digitChar (digitValue c) = c :=
  of_digitValue_lt_ten (P := fun c => Nat.digitChar (digitValue c) = c) h
    (List.all_iff_forall_prop.1 (by decide))

theorem radixDigit?_eq {b : Base} {c : Char} (h : digitValue c < b.radix) :
    radixDigit? b.radix c = some (digitValue c) := by
  have hall : ∀ c ∈ hexDigits, digitValue c < b.radix → radixDigit? b.radix c = some (digitValue c) := by
    cases b <;> exact List.all_iff_forall_prop.1 (by decide)
  exact hall c (mem_hexDigits (h.trans_le b.radix_le)) h

/-! ## Digits -/

theorem foldlM_radixDigit? {b : Base} {ds : List Char} (h : ∀ c ∈ ds, digitValue c < b.radix) :
    ds.foldlM (fun n c => (radixDigit? b.radix c).map (b.radix * n + ·)) 0 =
      some (digitsIn b.radix ds) := by
  induction ds using List.reverseRecOn with
  | nil => rfl
  | append_singleton ds c ih =>
    rw [List.foldlM_append, ih fun c hc => h c (List.mem_append_left _ hc)]
    simp [radixDigit?_eq (h c (by simp))]

theorem radixValue?_eq {b : Base} {ds : List Char} (hne : ds ≠ [])
    (h : ∀ c ∈ ds, digitValue c < b.radix) : radixValue? b.radix ds = some (digitsIn b.radix ds) := by
  cases ds with
  | nil => exact absurd rfl hne
  | cons c ds => exact foldlM_radixDigit? h

/-- Decimal digits without a leading zero are those of the number that they write. -/
theorem decimalDigits_digitsIn {ds : List Char} (h : ∀ c ∈ ds, digitValue c < 10)
    (hpos : ds.head? ≠ some '0') (hne : ds ≠ []) :
    0 < digitsIn 10 ds ∧ decimalDigits (digitsIn 10 ds) = ds := by
  induction ds using List.reverseRecOn with
  | nil => exact absurd rfl hne
  | append_singleton ds c ih =>
    have hc : digitValue c < 10 := h c (by simp)
    have hchar : decimalDigits (digitValue c) = [c] := by
      rw [decimalDigits, Nat.toDigits_of_lt_base hc, digitChar_digitValue hc]
    cases ds with
    | nil =>
      constructor
      · apply Nat.pos_of_ne_zero
        intro h0
        have hzero : digitValue c = 0 := by simpa [digitsIn] using h0
        have hfirst := digitChar_digitValue hc
        rw [hzero] at hfirst
        exact hpos (congrArg some hfirst.symm)
      · simpa [digitsIn] using hchar
    | cons d ds =>
      obtain ⟨hlt, hds⟩ := ih (fun c hc => h c (List.mem_append_left _ hc)) hpos (by simp)
      rw [digitsIn_append]
      constructor
      · omega
      · have happend := Nat.toDigits_append_toDigits (b := 10) (by decide) hlt hc
        unfold decimalDigits at hds hchar ⊢
        rw [← happend, hds, hchar]

/-! ## Parts -/

theorem filter_intercalate {c : Char} {gs : List (List Char)} (h : ∀ g ∈ gs, c ∉ g) :
    (List.intercalate [c] gs).filter (· != c) = gs.flatten := by
  induction gs with
  | nil => rfl
  | cons g gs ih =>
    have hg : g.filter (· != c) = g := List.filter_eq_self.2 fun d hd => by
      simpa using ne_of_mem_of_not_mem hd (h g List.mem_cons_self)
    cases gs with
    | nil => simpa [List.intercalate] using hg
    | cons g' gs =>
      have hrest := ih fun g hg => h g (List.mem_cons_of_mem _ hg)
      rw [List.intercalate_cons_cons, List.filter_append, List.filter_append, hg, hrest]
      simp

theorem readLiteralNat?_of_head? {cs : List Char} (h : cs.head? ≠ some '0') :
    readLiteralNat? cs = readDecimalNat? cs := by
  unfold readLiteralNat?
  split
  · exact absurd rfl h
  · rfl

namespace IntegerLiteral

variable (w : IntegerLiteral)

theorem digits_ne_nil : w.digits ≠ [] := by
  obtain ⟨g, hg⟩ := List.exists_mem_of_ne_nil _ w.groups_ne_nil
  intro h
  exact w.group_ne_nil g hg (List.flatten_eq_nil_iff.1 h g hg)

theorem mem_hexDigits_of_mem_digits {c : Char} (h : c ∈ w.digits) : c ∈ hexDigits :=
  mem_hexDigits ((w.digit_lt c h).trans_le w.base.radix_le)

theorem digit_lt_ten (hbase : w.base = .decimal) {c : Char} (h : c ∈ w.digits) : digitValue c < 10 := by
  have hlt := w.digit_lt c h
  rwa [hbase] at hlt

theorem mark_of_decimal (hbase : w.base = .decimal) : w.mark = [] := by
  rw [mark, hbase, Base.mark]

theorem bare_of_decimal (hbase : w.base = .decimal) : w.bare = List.intercalate ['_'] w.groups := by
  rw [bare, w.mark_of_decimal hbase, List.nil_append]

theorem filter_digits : (List.intercalate ['_'] w.groups).filter (· != '_') = w.digits := by
  apply filter_intercalate
  intro g hg hmem
  exact absurd (w.mem_hexDigits_of_mem_digits (List.mem_flatten.2 ⟨g, hg, hmem⟩)) (by decide)

theorem mem_bare {c : Char} (h : c ∈ w.bare) : c ∈ '_' :: hexDigits ++ "xXoO".toList := by
  rcases List.mem_append.1 h with h | h
  · have hmark : ∀ b upper, ∀ c ∈ Base.mark b upper, c ∈ '_' :: hexDigits ++ "xXoO".toList := by
      rintro (_ | _ | _ | _) (_ | _) <;> exact List.all_iff_forall_prop.1 (by decide)
    exact hmark _ _ c h
  · by_cases hc : c = '_'
    · simp [hc]
    · have hmem : c ∈ w.digits := by
        rw [← w.filter_digits, List.mem_filter]
        exact ⟨h, by simpa using hc⟩
      exact List.mem_append_left _ (List.mem_cons_of_mem _ (w.mem_hexDigits_of_mem_digits hmem))

theorem filter_bare : w.bare.filter (· != '_') = w.mark ++ w.digits := by
  have hmark : w.mark.filter (· != '_') = w.mark := by
    unfold mark
    cases w.base <;> cases w.upper <;> rfl
  rw [bare, List.filter_append, hmark, filter_digits]

theorem bare_ne_nil : w.bare ≠ [] := by
  intro h
  have hfilter := w.filter_bare
  rw [h] at hfilter
  exact w.digits_ne_nil (List.append_eq_nil_iff.1 hfilter.symm).2

theorem decimal_digits (h : w.base = .decimal) : w.digits = ['0'] ∨ w.digits.head? ≠ some '0' := by
  by_cases h0 : w.digits.head? = some '0'
  · left
    rw [digits, w.leading h h0]
    rfl
  · exact .inr h0

/-- Without its separators, a literal is read as its integer, unless there are too many decimal
digits. -/
theorem readLiteralNat?_eq : readLiteralNat? (w.mark ++ w.digits) =
    if w.base = .decimal ∧ maxDecimalDigits < w.digits.length then none else some w.magnitude := by
  have hvalue : radixValue? w.base.radix w.digits = some w.magnitude :=
    radixValue?_eq w.digits_ne_nil w.digit_lt
  by_cases hbase : w.base = .decimal
  · have hread : readLiteralNat? w.digits = readDecimalNat? w.digits := by
      rcases w.decimal_digits hbase with h | h
      · rw [h]
        rfl
      · exact readLiteralNat?_of_head? h
    rw [w.mark_of_decimal hbase, List.nil_append, hread, readDecimalNat?]
    simp only [hbase] at hvalue
    simp only [hbase, true_and]
    split_ifs with h h'
    · omega
    · exact hvalue
    · rfl
    · omega
  · rw [if_neg fun h => hbase h.1, ← hvalue, mark]
    cases hb : w.base <;> cases w.upper
    all_goals first
      | exact absurd hb hbase
      | rfl

end IntegerLiteral

end TypeAtlas.TypeScript
