import TypeAtlas.Number.Layout
import Mathlib.Algebra.Order.Field.Rat
import Mathlib.Tactic.FieldSimp
import Mathlib.Tactic.Ring

/-! # Written decimals

A positive number is written with a point, or with a point and an exponent. Either form can be read
back: it stands for the decimal that was written, in every layout.
-/

namespace TypeAtlas

def Binary64.Decimal.value (d : Binary64.Decimal) : ℚ := d.digits * (10 : ℚ) ^ d.exponent

/-- The number that a list of digits writes. -/
def digitsNat (cs : List Char) : ℕ := Nat.ofDigitChars 10 cs 0

@[simp] theorem digitsNat_decimalDigits (n : ℕ) : digitsNat (decimalDigits n) = n :=
  Nat.ofDigitChars_ten_toDigits

theorem digitsNat_append_zeros (cs : List Char) (n : ℕ) :
    digitsNat (cs ++ List.replicate n '0') = digitsNat cs * 10 ^ n := by
  simp [digitsNat, Nat.ofDigitChars_append, Nat.mul_comm]

theorem digitsNat_zeros_append (cs : List Char) (n : ℕ) :
    digitsNat (List.replicate n '0' ++ cs) = digitsNat cs := by
  simp [digitsNat, Nat.ofDigitChars_append]

theorem digitsNat_padded (width n : ℕ) : digitsNat (padded width n) = n := by
  rw [padded, digitsNat_zeros_append, digitsNat_decimalDigits]

theorem isDigit_of_mem_decimalDigits {n : ℕ} {c : Char} (h : c ∈ decimalDigits n) : c.isDigit :=
  Nat.isDigit_of_mem_toDigits (by decide) (by decide) h

theorem isDigit_of_mem_zeros {n : ℕ} {c : Char} (h : c ∈ List.replicate n '0') : c.isDigit := by
  rw [List.eq_of_mem_replicate h]
  rfl

theorem isDigit_of_mem_padded {width n : ℕ} {c : Char} (h : c ∈ padded width n) : c.isDigit := by
  rcases List.mem_append.1 h with h | h
  · exact isDigit_of_mem_zeros h
  · exact isDigit_of_mem_decimalDigits h

theorem decimalDigits_ne_nil (n : ℕ) : decimalDigits n ≠ [] := Nat.toDigits_ne_nil

/-! ## Reading back -/

/-- The exponent that a text ends in, or zero. -/
def exponentPart : List Char → ℤ
  | 'e' :: '-' :: ds => -digitsNat ds
  | 'e' :: '+' :: ds => digitsNat ds
  | _ => 0

/-- The digits after the point, and what follows them. -/
def fractionPart : List Char → List Char × List Char
  | '.' :: cs => (cs.takeWhile Char.isDigit, cs.dropWhile Char.isDigit)
  | cs => ([], cs)

/-- The number for which digits with a point or an exponent stand. -/
def readDecimal (cs : List Char) : ℚ :=
  let part := fractionPart (cs.dropWhile Char.isDigit)
  digitsNat (cs.takeWhile Char.isDigit ++ part.1) *
    (10 : ℚ) ^ (exponentPart part.2 - part.1.length)

theorem span_digits {ds : List Char} (rest : List Char) (h : ∀ c ∈ ds, c.isDigit)
    (hr : ∀ c ∈ rest.head?, c.isDigit = false) :
    (ds ++ rest).takeWhile Char.isDigit = ds ∧ (ds ++ rest).dropWhile Char.isDigit = rest := by
  have ht : rest.takeWhile Char.isDigit = [] ∧ rest.dropWhile Char.isDigit = rest := by
    cases rest with
    | nil => simp
    | cons c cs => simp_all
  rw [List.takeWhile_append_of_pos h, List.dropWhile_append_of_pos h, ht.1, ht.2]
  simp

/-- The exponent of a number in scientific form. -/
def exponentText (width : ℕ) (e : ℤ) : List Char :=
  'e' :: (if e < 0 then '-' else '+') :: padded width e.natAbs

theorem exponentPart_exponentText (width : ℕ) (e : ℤ) : exponentPart (exponentText width e) = e := by
  unfold exponentText
  split_ifs with h
  · rw [exponentPart, digitsNat_padded]
    omega
  · rw [exponentPart, digitsNat_padded]
    omega

theorem readDecimal_point (whole part : List Char) (hw : ∀ c ∈ whole, c.isDigit)
    (hp : ∀ c ∈ part, c.isDigit) :
    readDecimal (whole ++ '.' :: part) =
      digitsNat (whole ++ part) * (10 : ℚ) ^ (-part.length : ℤ) := by
  obtain ⟨ht, hd⟩ := span_digits ('.' :: part) hw (by simp)
  obtain ⟨hpt, hpd⟩ := span_digits [] hp (by simp)
  rw [List.append_nil] at hpt hpd
  simp [readDecimal, ht, hd, fractionPart, hpt, hpd, exponentPart]

theorem readDecimal_scientific {c : Char} {part : List Char} (width : ℕ) (e : ℤ)
    (hc : c.isDigit) (hp : ∀ c ∈ part, c.isDigit) :
    readDecimal (scientific width (c :: part) e) =
      digitsNat (c :: part) * (10 : ℚ) ^ (e - part.length) := by
  have he : ∀ c ∈ (exponentText width e).head?, c.isDigit = false := by simp [exponentText]
  have hw : ∀ b ∈ [c], b.isDigit := by simpa using hc
  cases part with
  | nil =>
    obtain ⟨ht, hd⟩ := span_digits _ hw he
    have hs : scientific width [c] e = [c] ++ exponentText width e := rfl
    have hf : fractionPart (exponentText width e) = ([], exponentText width e) := rfl
    simp only [readDecimal, hs, ht, hd, hf, exponentPart_exponentText]
    simp
  | cons b bs =>
    obtain ⟨ht, hd⟩ := span_digits ('.' :: (b :: bs ++ exponentText width e)) hw (by simp)
    obtain ⟨hpt, hpd⟩ := span_digits _ hp he
    have hs : scientific width (c :: b :: bs) e =
        [c] ++ '.' :: (b :: bs ++ exponentText width e) := rfl
    simp only [readDecimal, hs, ht, hd, fractionPart, hpt, hpd, exponentPart_exponentText]
    simp

/-! ## Layouts -/

theorem readDecimal_positional {digits : List Char} (hd : ∀ c ∈ digits, c.isDigit) (place : ℤ) :
    readDecimal (positional digits place) =
      digitsNat digits * (10 : ℚ) ^ (place - digits.length) := by
  have h10 : (10 : ℚ) ≠ 0 := by norm_num
  simp only [positional]
  split_ifs with hp hn
  · -- zeros stand between the point and the digits
    have hz : ∀ c ∈ List.replicate (-place).toNat '0' ++ digits, c.isDigit := fun c hc =>
      (List.mem_append.1 hc).elim isDigit_of_mem_zeros (hd c)
    have hr := readDecimal_point ['0'] _ (by simp) hz
    have hzero : digitsNat (['0'] ++ (List.replicate (-place).toNat '0' ++ digits)) =
        digitsNat digits := by
      rw [← List.append_assoc, ← List.replicate_one, List.replicate_append_replicate,
        digitsNat_zeros_append]
    rw [hzero] at hr
    have he : (-((List.replicate (-place).toNat '0' ++ digits).length : ℕ) : ℤ) =
        place - digits.length := by
      simp only [List.length_append, List.length_replicate]
      omega
    rw [he] at hr
    exact hr
  · -- zeros stand between the digits and the point
    have hw : ∀ c ∈ digits ++ List.replicate (place.toNat - digits.length) '0', c.isDigit :=
      fun c hc => (List.mem_append.1 hc).elim (hd c) isDigit_of_mem_zeros
    have hr := readDecimal_point _ ['0'] hw (by simp)
    have hone : digits ++ List.replicate (place.toNat - digits.length) '0' ++ ['0'] =
        digits ++ List.replicate (place.toNat - digits.length + 1) '0' := by
      rw [List.replicate_succ', List.append_assoc]
    have he : place - digits.length =
        ((place.toNat - digits.length + 1 : ℕ) : ℤ) + -(['0'].length : ℤ) := by
      simp only [List.length_singleton]
      omega
    rw [hone, digitsNat_append_zeros] at hr
    rw [hr, he, zpow_add₀ h10, zpow_natCast]
    push_cast
    ring
  · -- the point stands among the digits
    have hr := readDecimal_point (digits.take place.toNat) (digits.drop place.toNat)
      (fun c hc => hd c (List.mem_of_mem_take hc)) fun c hc => hd c (List.mem_of_mem_drop hc)
    have he : (-((digits.drop place.toNat).length : ℕ) : ℤ) = place - digits.length := by
      simp only [List.length_drop]
      omega
    rw [List.take_append_drop, he] at hr
    exact hr

/-- A written decimal reads back as what it stands for, in every layout. -/
theorem FloatLayout.readDecimal_writeDecimal (layout : FloatLayout) (d : Binary64.Decimal) :
    readDecimal (layout.writeDecimal d) = d.value := by
  have hd : ∀ c ∈ decimalDigits d.digits, c.isDigit := fun c => isDigit_of_mem_decimalDigits
  have hv : d.value = digitsNat (decimalDigits d.digits) * (10 : ℚ) ^ d.exponent := by
    rw [digitsNat_decimalDigits, Binary64.Decimal.value]
  simp only [FloatLayout.writeDecimal]
  split_ifs with h
  · rw [readDecimal_positional hd, hv]
    congr 2
    ring
  · rw [hv]
    cases hds : decimalDigits d.digits with
    | nil => exact absurd hds (decimalDigits_ne_nil _)
    | cons c part =>
      rw [hds] at hd
      rw [readDecimal_scientific _ _ (hd c (by simp)) fun b hb => hd b (by simp [hb])]
      congr 2
      push_cast [List.length_cons]
      ring

end TypeAtlas
