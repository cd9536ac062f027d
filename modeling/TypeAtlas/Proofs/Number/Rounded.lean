import TypeAtlas.Proofs.Number.Shortest
import Mathlib.Algebra.Order.Archimedean.Basic

/-! # Rounded quotients

A quotient in the interval of a double-precision number is rounded to that number, a half to the
number whose significand is even. So a decimal in the interval reads back as the number.
-/

namespace TypeAtlas.Binary64

variable {num den m : ℕ} {e : ℤ} {q : ℚ}

/-- Half a unit away a quotient is still rounded to a multiple, if the multiple is even. -/
theorem divideToEven_eq (hden : 0 < den) (hlow : 2 * m * den ≤ 2 * num + den)
    (hhigh : 2 * num ≤ (2 * m + 1) * den)
    (hodd : m % 2 = 1 → 2 * m * den < 2 * num + den ∧ 2 * num < (2 * m + 1) * den) :
    divideToEven num den = m := by
  have hsplit : den * (num / den) + num % den = num := Nat.div_add_mod num den
  have hmod : num % den < den := Nat.mod_lt num hden
  unfold divideToEven
  generalize num / den = k at hsplit
  generalize num % den = r at hsplit hmod
  have hupper : m ≤ k + 1 := by
    by_contra hlt
    have : den * (k + 2) ≤ den * m := Nat.mul_le_mul_left den (by omega)
    nlinarith
  have hlower : k ≤ m := by
    by_contra hlt
    have : den * (m + 1) ≤ den * k := Nat.mul_le_mul_left den (by omega)
    nlinarith
  dsimp only
  obtain rfl | rfl : m = k ∨ m = k + 1 := by omega
  · split_ifs with h₁ h₂ h₃
    · rfl
    · nlinarith
    · rfl
    · have := (hodd (by omega)).2
      nlinarith
  · split_ifs with h₁ h₂ h₃
    · nlinarith
    · rfl
    · have := (hodd (by omega)).1
      nlinarith
    · rfl

/-! ## Exponents -/

theorem lt_two_zpow_log (hden : den ≠ 0) :
    (num : ℚ) < (2 : ℚ) ^ ((num.log2 : ℤ) - den.log2 + 1) * den := by
  have hl : (num : ℚ) < (2 : ℚ) ^ (num.log2 + 1) := by exact_mod_cast Nat.lt_log2_self
  have hr : (2 : ℚ) ^ den.log2 ≤ den := by exact_mod_cast Nat.log2_self_le hden
  calc (num : ℚ) < (2 : ℚ) ^ (num.log2 + 1) := hl
    _ = (2 : ℚ) ^ ((num.log2 : ℤ) - den.log2 + 1) * (2 : ℚ) ^ den.log2 := by
      rw [← zpow_natCast, ← zpow_natCast, ← zpow_add₀ (by norm_num)]
      congr 1
      push_cast
      ring
    _ ≤ (2 : ℚ) ^ ((num.log2 : ℤ) - den.log2 + 1) * den := by gcongr

theorem lt_power_iff (k : ℤ) :
    (if 0 ≤ k then decide (num < den * Nat.pow 2 k.toNat)
      else decide (num * Nat.pow 2 (-k).toNat < den)) = true ↔ (num : ℚ) < (2 : ℚ) ^ k * den := by
  split_ifs with hk
  · have hpow : (2 : ℚ) ^ k = ((2 ^ k.toNat : ℕ) : ℚ) := by
      rw [Nat.cast_pow, ← zpow_natCast, Int.toNat_of_nonneg hk, Nat.cast_ofNat]
    rw [decide_eq_true_eq, hpow, Nat.pow_eq, mul_comm]
    exact_mod_cast Iff.rfl
  · have hpow : (2 : ℚ) ^ k * ((2 ^ (-k).toNat : ℕ) : ℚ) = 1 := by
      rw [Nat.cast_pow, ← zpow_natCast, Int.toNat_of_nonneg (by omega), Nat.cast_ofNat,
        ← zpow_add₀ (by norm_num), add_neg_cancel, zpow_zero]
    have hpos : (0 : ℚ) < ((2 ^ (-k).toNat : ℕ) : ℚ) := by positivity
    rw [decide_eq_true_eq, Nat.pow_eq, ← mul_lt_mul_iff_left₀ hpos, mul_right_comm, hpow, one_mul]
    exact_mod_cast Iff.rfl

theorem roundingExponent_eq {l : ℤ} (hnum : num ≠ 0) (hden : 0 < den)
    (hlow : (2 : ℚ) ^ l * den ≤ num) (hhigh : (num : ℚ) < (2 : ℚ) ^ (l + 1) * den) :
    roundingExponent num den = max (l - 52) leastExponent := by
  have hpos : (0 : ℚ) < den := by exact_mod_cast hden
  have hlt {i j : ℤ} (h : (2 : ℚ) ^ i * den < (2 : ℚ) ^ j * den) : i < j :=
    (zpow_lt_zpow_iff_right₀ (by norm_num)).1 (lt_of_mul_lt_mul_right h hpos.le)
  have hupper := hlt (hlow.trans_lt (lt_two_zpow_log hden.ne'))
  have hlower := hlt ((two_zpow_log_le hnum).trans_lt hhigh)
  unfold roundingExponent
  generalize (num.log2 : ℤ) - den.log2 = k at hupper hlower
  dsimp only
  congr 1
  by_cases hbelow : (num : ℚ) < (2 : ℚ) ^ k * den
  · have := hlt (hlow.trans_lt hbelow)
    rw [if_pos ((lt_power_iff k).2 hbelow)]
    omega
  · have := hlt ((not_lt.1 hbelow).trans_lt hhigh)
    rw [if_neg (mt (lt_power_iff k).1 hbelow)]
    omega

/-! ## Rounding -/

theorem divideToEven_of_near (hden : 0 < den) (hq : (num : ℚ) = q * den) (hlow : m - 1 / 2 ≤ q)
    (hhigh : q ≤ m + 1 / 2) (hodd : m % 2 = 1 → m - 1 / 2 < q ∧ q < m + 1 / 2) :
    divideToEven num den = m := by
  have hpos : (0 : ℚ) < den := by exact_mod_cast hden
  have hle {x y : ℕ} (h : (x : ℚ) ≤ y) : x ≤ y := by exact_mod_cast h
  have hlt {x y : ℕ} (h : (x : ℚ) < y) : x < y := by exact_mod_cast h
  refine divideToEven_eq hden (hle ?_) (hle ?_) fun h => ⟨hlt ?_, hlt ?_⟩
  · push_cast
    rw [hq]
    nlinarith
  · push_cast
    rw [hq]
    nlinarith
  · have := (hodd h).1
    push_cast
    rw [hq]
    nlinarith
  · have := (hodd h).2
    push_cast
    rw [hq]
    nlinarith

theorem divideToEven_scaled (hden : 0 < den) (hq : (num : ℚ) = q * (2 : ℚ) ^ e * den)
    (hlow : m - 1 / 2 ≤ q) (hhigh : q ≤ m + 1 / 2)
    (hodd : m % 2 = 1 → m - 1 / 2 < q ∧ q < m + 1 / 2) :
    (if 0 ≤ e then divideToEven num (den * Nat.pow 2 e.toNat)
      else divideToEven (num * Nat.pow 2 (-e).toNat) den) = m := by
  split_ifs with he
  · refine divideToEven_of_near (Nat.mul_pos hden (Nat.pow_pos (by decide))) ?_ hlow hhigh hodd
    rw [hq, Nat.pow_eq, Nat.cast_mul, Nat.cast_pow, ← zpow_natCast, Int.toNat_of_nonneg he,
      Nat.cast_ofNat]
    ring
  · refine divideToEven_of_near hden ?_ hlow hhigh hodd
    rw [Nat.cast_mul, hq, Nat.pow_eq, Nat.cast_pow, ← zpow_natCast,
      Int.toNat_of_nonneg (by omega), Nat.cast_ofNat, mul_right_comm, mul_assoc q,
      ← zpow_add₀ (by norm_num), add_neg_cancel, zpow_zero, mul_one]

theorem eq_scaled (e : ℤ) (q : ℚ) : q = q * (2 : ℚ) ^ (-e) * (2 : ℚ) ^ e := by
  rw [mul_assoc, ← zpow_add₀ (by norm_num), neg_add_cancel, zpow_zero, mul_one]

theorem Within.near (h : Within m e q) :
    (if m = hiddenBit ∧ leastExponent < e then (m : ℚ) - 1 / 4 else m - 1 / 2) ≤ q * (2 : ℚ) ^ (-e) ∧
      q * (2 : ℚ) ^ (-e) ≤ m + 1 / 2 ∧
      (m % 2 = 1 → m - 1 / 2 < q * (2 : ℚ) ^ (-e) ∧ q * (2 : ℚ) ^ (-e) < m + 1 / 2) := by
  have hpos : (0 : ℚ) < (2 : ℚ) ^ e := by positivity
  have hquarter : (2 : ℚ) ^ (e - 2) = (2 : ℚ) ^ e / 4 := by
    rw [zpow_sub₀ (by norm_num)]
    norm_num
  obtain ⟨hlow, hlowlt⟩ := h.low_le
  obtain ⟨hhigh, hhighlt⟩ := h.le_high
  have heq := eq_scaled e q
  generalize q * (2 : ℚ) ^ (-e) = x at heq
  rw [hquarter, heq] at hlow hlowlt hhigh hhighlt
  have hm4 : 4 * (m : ℚ) ≤ ((4 * m - 2 : ℕ) : ℚ) + 2 := by
    exact_mod_cast (by omega : 4 * m ≤ 4 * m - 2 + 2)
  refine ⟨?_, ?_, fun hodd => ⟨?_, ?_⟩⟩
  · refine le_of_mul_le_mul_right (le_trans ?_ hlow) hpos
    unfold neighbourhood
    split_ifs with hm hn hn
    · have : 4 * (m : ℚ) ≤ ((4 * m - 1 : ℕ) : ℚ) + 1 := by
        exact_mod_cast (by omega : 4 * m ≤ 4 * m - 1 + 1)
      nlinarith
    · simp [hm] at hn
    · simp [hm] at hn
    · nlinarith
  · push_cast at hhigh
    refine le_of_mul_le_mul_right (le_trans hhigh ?_) hpos
    exact le_of_eq (by ring)
  · have hlt := hlowlt hodd
    refine lt_of_mul_lt_mul_right (lt_of_le_of_lt ?_ hlt) hpos.le
    unfold neighbourhood
    split_ifs with hn
    · have hbit : hiddenBit = 4503599627370496 := by rw [hiddenBit_eq]; norm_num
      simp only [Bool.and_eq_true, decide_eq_true_eq, hbit] at hn
      omega
    · nlinarith
  · have hlt := hhighlt hodd
    push_cast at hlt
    refine lt_of_mul_lt_mul_right (lt_of_lt_of_le hlt ?_) hpos.le
    exact le_of_eq (by ring)

/-- Just below a power of two numbers lie twice as close, so a quotient there can have a smaller
exponent than the number it is rounded to. -/
theorem roundingExponent_of_within (hm : Normal m e) (hnum : num ≠ 0) (hden : 0 < den)
    (hq : (num : ℚ) = q * den) (h : Within m e q) :
    roundingExponent num den = e ∨ roundingExponent num den = e - 1 ∧ leastExponent < e ∧
      m = hiddenBit ∧ q * (2 : ℚ) ^ (-e) < m := by
  obtain ⟨hlow, hhigh, -⟩ := h.near
  have heq := eq_scaled e q
  generalize q * (2 : ℚ) ^ (-e) = x at heq hlow hhigh ⊢
  rw [heq] at hq
  have hdpos : (0 : ℚ) < den := by exact_mod_cast hden
  have hbit : hiddenBit = 4503599627370496 := by rw [hiddenBit_eq]; norm_num
  have hlow' : (m : ℚ) - 1 / 2 ≤ x := by split_ifs at hlow <;> linarith
  have hexp {k : ℤ} (hl : (2 : ℚ) ^ k ≤ x) (hr : x < (2 : ℚ) ^ (k + 1)) :
      roundingExponent num den = max (k + e - 52) leastExponent := by
    refine roundingExponent_eq hnum hden ?_ ?_
    · rw [hq, zpow_add₀ (by norm_num)]
      gcongr
    · rw [hq, show k + e + 1 = k + 1 + e by ring, zpow_add₀ (by norm_num)]
      gcongr
  have hleast := hm.least
  by_cases hfull : hiddenBit ≤ m
  · have hfull' : (4503599627370496 : ℚ) ≤ m := by exact_mod_cast hbit ▸ hfull
    have hlt : (m : ℚ) + 1 ≤ 9007199254740992 := by
      exact_mod_cast (show m + 1 ≤ 9007199254740992 by have := hm.lt; omega)
    by_cases hx : (4503599627370496 : ℚ) ≤ x
    · rw [hexp (k := 52) (by norm_num; exact hx) (by norm_num; linarith)]
      exact .inl (by omega)
    · have hmbit : m = hiddenBit := by
        have : (m : ℚ) < 4503599627370497 := by linarith
        have : m < 4503599627370497 := by exact_mod_cast this
        omega
      rw [hexp (k := 51) (by norm_num; linarith) (by norm_num; linarith)]
      by_cases he : leastExponent < e
      · exact .inr ⟨by omega, he, hmbit, by linarith⟩
      · exact .inl (by omega)
  · have he : e = leastExponent := hm.full.resolve_left hfull
    have hmpos : (1 : ℚ) ≤ m := by exact_mod_cast hm.pos
    have hsmall : (m : ℚ) + 1 ≤ 4503599627370496 := by
      exact_mod_cast (show m + 1 ≤ 4503599627370496 by omega)
    obtain ⟨k, hk⟩ := exists_mem_Ico_zpow (show 0 < x by linarith) (show (1 : ℚ) < 2 by norm_num)
    have hklt : k < 52 := by
      refine (zpow_lt_zpow_iff_right₀ (show (1 : ℚ) < 2 by norm_num)).1 (hk.1.trans_lt ?_)
      norm_num
      linarith
    rw [hexp hk.1 hk.2]
    exact .inl (by omega)

/-- A quotient in the interval of a number is rounded to it. -/
theorem ofQuotient_of_within {x : Binary64} {negative : Bool} (hx : x.reading = .finite negative m e)
    (hm : m ≠ 0) (hden : 0 < den) (hq : (num : ℚ) = q * den) (h : Within m e q) :
    ofQuotient negative num den = x := by
  have hnormal := normal_of_reading hx hm
  obtain ⟨hlow, hhigh, hodd⟩ := h.near
  have hmpos : (1 : ℚ) ≤ m := by exact_mod_cast hnormal.pos
  have hbit : hiddenBit = 4503599627370496 := by rw [hiddenBit_eq]; norm_num
  have hleast : leastExponent = -1074 := rfl
  have hnum : num ≠ 0 := by
    rintro rfl
    have hpos : 0 < q := by
      rw [eq_scaled e q]
      have : 0 < q * (2 : ℚ) ^ (-e) := by split_ifs at hlow <;> linarith
      positivity
    have : 0 < q * den := by positivity
    simp [← hq] at this
  obtain ⟨i, f, hi, hf, hbits, hparts⟩ := bits_of_reading hx
  -- The bits of the number are its significand, counted on from the least exponent.
  have hfrom {k : ℤ} {n : ℕ} (hk : roundingExponent num den = k)
      (hn : (if 0 ≤ k then divideToEven num (den * Nat.pow 2 k.toNat)
        else divideToEven (num * Nat.pow 2 (-k).toNat) den) = n)
      (hsame : (k - leastExponent).toNat * hiddenBit + n = i * hiddenBit + f) :
      ofQuotient negative num den = x := by
    have hfinite : ¬ 0x7ff0000000000000 ≤ i * hiddenBit + f := by
      rw [hbit] at hf ⊢
      omega
    unfold ofQuotient
    simp only [hnum, hden.ne', decide_false, Bool.or_self, Bool.false_eq_true, if_false, hk, hn,
      hsame, hfinite, ← Nat.add_assoc, ← hbits]
    exact congrArg Binary64.mk UInt64.ofNat_toNat
  rcases roundingExponent_of_within hnormal hnum hden hq h with hk | ⟨hk, he, hmbit, hlt⟩
  · refine hfrom hk (divideToEven_scaled hden ?_ ?_ hhigh hodd) ?_
    · rw [hq, ← eq_scaled]
    · split_ifs at hlow <;> linarith
    · rcases hparts with ⟨rfl, rfl, rfl⟩ | ⟨hi0, rfl, rfl⟩
      · simp
      · rw [hleast, show ((i : ℤ) - 1075 - -1074).toNat = i - 1 by omega]
        obtain ⟨i, rfl⟩ := Nat.exists_eq_succ_of_ne_zero hi0
        simp only [Nat.succ_eq_add_one, Nat.add_sub_cancel]
        ring
  · rw [if_pos ⟨hmbit, he⟩] at hlow
    refine hfrom hk (divideToEven_scaled (m := 2 * m) (q := q * (2 : ℚ) ^ (-e) * 2) hden ?_ ?_ ?_
      (by omega)) ?_
    · rw [hq, mul_assoc _ (2 : ℚ), ← zpow_one_add₀ (by norm_num), add_sub_cancel, ← eq_scaled]
    · push_cast
      linarith
    · push_cast
      linarith
    · obtain ⟨rfl, -, rfl⟩ | ⟨hi0, hmf, rfl⟩ := hparts
      · omega
      · obtain rfl : f = 0 := by omega
        rw [hleast] at he ⊢
        obtain ⟨i, rfl⟩ : ∃ j, i = j + 2 := ⟨i - 2, by omega⟩
        rw [show (((i + 2 : ℕ) : ℤ) - 1075 - 1 - -1074).toNat = i by omega, hmbit]
        ring

/-- A decimal in the interval of a number is read as it. -/
theorem ofDecimal_of_within {x : Binary64} {negative : Bool} {digits : ℕ} {exponent : ℤ}
    (hx : x.reading = .finite negative m e) (hm : m ≠ 0)
    (h : Within m e (digits * (10 : ℚ) ^ exponent)) : ofDecimal negative digits exponent = x := by
  have hnormal := normal_of_reading hx hm
  obtain ⟨hlow, hhigh, -⟩ := h.near
  have hmpos : (1 : ℚ) ≤ m := by exact_mod_cast hnormal.pos
  have hlow' : (1 : ℚ) / 2 ≤ digits * (10 : ℚ) ^ exponent * (2 : ℚ) ^ (-e) := by
    split_ifs at hlow <;> linarith
  have hdigits : digits ≠ 0 := by
    rintro rfl
    norm_num at hlow'
  have hone : (1 : ℚ) ≤ digits := by exact_mod_cast Nat.one_le_iff_ne_zero.2 hdigits
  have hmlt : (m : ℚ) + 1 / 2 < (2 : ℚ) ^ (229 : ℤ) := by
    have hlt : (m : ℚ) ≤ 2 ^ 53 := by exact_mod_cast hnormal.lt.le
    calc (m : ℚ) + 1 / 2 ≤ 2 ^ 53 + 1 / 2 := by gcongr
      _ < (2 : ℚ) ^ (229 : ℤ) := by norm_num
  have hgreat : ¬ 400 < exponent := by
    intro he
    refine absurd hhigh (not_le.2 (hmlt.trans_le ?_))
    have hten : (2 : ℚ) ^ (1200 : ℤ) ≤ (10 : ℚ) ^ exponent :=
      calc (2 : ℚ) ^ (1200 : ℤ) ≤ (2 : ℚ) ^ (3 * exponent) :=
            zpow_le_zpow_right₀ (by norm_num) (by omega)
        _ = ((2 : ℚ) ^ (3 : ℤ)) ^ exponent := zpow_mul _ _ _
        _ ≤ (10 : ℚ) ^ exponent := zpow_le_zpow_left₀ (by omega) (by norm_num) (by norm_num)
    calc (2 : ℚ) ^ (229 : ℤ) ≤ 1 * (2 : ℚ) ^ (1200 : ℤ) * (2 : ℚ) ^ (-e) := by
          rw [one_mul, ← zpow_add₀ (by norm_num)]
          exact zpow_le_zpow_right₀ (by norm_num) (by have := hnormal.most; omega)
      _ ≤ digits * (10 : ℚ) ^ exponent * (2 : ℚ) ^ (-e) := by gcongr
  have hsmall : ¬ exponent + digits.log2 < -1500 := by
    intro he
    refine absurd hlow' (not_le.2 ?_)
    have hten : (10 : ℚ) ^ exponent ≤ (2 : ℚ) ^ exponent := ten_zpow_le_two_zpow (by omega)
    have hlog : (digits : ℚ) < (2 : ℚ) ^ ((digits.log2 : ℤ) + 1) := by
      exact_mod_cast Nat.lt_log2_self (n := digits)
    calc digits * (10 : ℚ) ^ exponent * (2 : ℚ) ^ (-e)
        < (2 : ℚ) ^ ((digits.log2 : ℤ) + 1) * (10 : ℚ) ^ exponent * (2 : ℚ) ^ (-e) := by gcongr
      _ ≤ (2 : ℚ) ^ ((digits.log2 : ℤ) + 1) * (2 : ℚ) ^ exponent * (2 : ℚ) ^ (-e) := by gcongr
      _ = (2 : ℚ) ^ ((digits.log2 : ℤ) + 1 + exponent - e) := by
        rw [← zpow_add₀ (by norm_num), ← zpow_add₀ (by norm_num), sub_eq_add_neg]
      _ ≤ (2 : ℚ) ^ (-1 : ℤ) := zpow_le_zpow_right₀ (by norm_num) (by
        have := hnormal.least
        have hleast : leastExponent = -1074 := rfl
        omega)
      _ = 1 / 2 := by norm_num
  unfold ofDecimal
  simp only [hdigits, hgreat, hsmall, if_false]
  split_ifs with he
  · refine ofQuotient_of_within hx hm (by decide) ?_ h
    rw [Nat.pow_eq, Nat.cast_mul, Nat.cast_pow, ← zpow_natCast, Int.toNat_of_nonneg he,
      Nat.cast_ofNat, Nat.cast_one, mul_one]
  · refine ofQuotient_of_within hx hm (Nat.pow_pos (by decide)) ?_ h
    rw [Nat.pow_eq, Nat.cast_pow, ← zpow_natCast, Int.toNat_of_nonneg (by omega), Nat.cast_ofNat,
      mul_assoc, ← zpow_add₀ (by norm_num), add_neg_cancel, zpow_zero, mul_one]

/-! ## Overflow -/

theorem div_le_divideToEven (num den : ℕ) : num / den ≤ divideToEven num den := by
  unfold divideToEven
  dsimp only
  split_ifs <;> omega

theorem ofQuotient_of_overflow {negative : Bool} (hlog : 1024 ≤ num.log2) :
    ofQuotient negative num 1 = infinity negative := by
  have hnum : num ≠ 0 := by
    rintro rfl
    exact absurd hlog (by decide)
  have hexponent : roundingExponent num 1 = ((num.log2 - 52 : ℕ) : ℤ) := by
    rw [roundingExponent_eq (l := num.log2) hnum Nat.one_pos]
    · have : leastExponent = -1074 := rfl
      omega
    · rw [zpow_natCast, Nat.cast_one, mul_one]
      exact_mod_cast Nat.log2_self_le hnum
    · rw [Nat.cast_one, mul_one]
      exact_mod_cast Nat.lt_log2_self
  have hsignificand : 2 ^ 52 ≤ divideToEven num (2 ^ (num.log2 - 52)) := by
    apply le_trans _ (div_le_divideToEven _ _)
    rw [Nat.le_div_iff_mul_le (Nat.two_pow_pos _), ← pow_add, Nat.add_sub_cancel' (by omega)]
    exact Nat.log2_self_le hnum
  have hmagnitude : 0x7ff0000000000000 ≤
      (((num.log2 - 52 : ℕ) : ℤ) - leastExponent).toNat * hiddenBit +
        divideToEven num (2 ^ (num.log2 - 52)) := by
    have hscale : 2046 ≤ (((num.log2 - 52 : ℕ) : ℤ) - leastExponent).toNat := by
      have : leastExponent = -1074 := rfl
      omega
    have := Nat.mul_le_mul_right hiddenBit hscale
    rw [hiddenBit_eq] at this ⊢
    omega
  unfold ofQuotient
  rw [if_neg (by simp [hnum])]
  simp only [hexponent, Int.natCast_nonneg, if_true, Int.toNat_natCast, one_mul, Nat.pow_eq]
  exact if_pos hmagnitude

theorem ofDecimal_of_overflow {negative : Bool} {digits : ℕ} (h : 1024 ≤ digits.log2) :
    ofDecimal negative digits 0 = infinity negative := by
  have hdigits : digits ≠ 0 := by
    rintro rfl
    exact absurd h (by decide)
  unfold ofDecimal
  rw [if_neg hdigits, if_neg (by decide), if_neg (by omega), if_pos le_rfl, Int.toNat_zero, Nat.pow_eq,
    pow_zero, mul_one]
  exact ofQuotient_of_overflow h

end TypeAtlas.Binary64
