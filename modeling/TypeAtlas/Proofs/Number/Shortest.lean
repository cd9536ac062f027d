import TypeAtlas.Proofs.Number.Decimal
import TypeAtlas.Number.Shortest
import Mathlib.Algebra.Order.Field.Power
import Mathlib.Tactic.GCongr
import Mathlib.Tactic.Linarith
import Mathlib.Tactic.NormNum

/-! # Shortest decimals

The reals that round to a double-precision number form an interval around it. The shortest decimal
of a number lies in its interval, since a grid of seventeen digits is fine enough to meet every
interval. The intervals of two numbers have no point in common, so the decimal determines the
number.
-/

namespace TypeAtlas.Binary64

/-- The significand and exponent of a positive finite number. -/
structure Normal (m : ℕ) (e : ℤ) : Prop where
  pos : 0 < m
  lt : m < 2 * hiddenBit
  least : leastExponent ≤ e
  most : e ≤ 971
  full : hiddenBit ≤ m ∨ e = leastExponent

/-- A number rounds to `m * 2 ^ e`. -/
def Within (m : ℕ) (e : ℤ) (q : ℚ) : Prop :=
  let n := neighbourhood m e
  if n.closed then n.low * (2 : ℚ) ^ (e - 2) ≤ q ∧ q ≤ n.high * (2 : ℚ) ^ (e - 2)
  else n.low * (2 : ℚ) ^ (e - 2) < q ∧ q < n.high * (2 : ℚ) ^ (e - 2)

theorem hiddenBit_eq : hiddenBit = 2 ^ 52 := rfl

/-! ## Scales -/

theorem power_split {b : ℕ} (hb : 0 < b) (k : ℤ) :
    ((if 0 ≤ k then Nat.pow b k.toNat else 1 : ℕ) : ℚ) =
      (b : ℚ) ^ k * ((if 0 ≤ k then 1 else Nat.pow b (-k).toNat : ℕ) : ℚ) := by
  have hb' : (b : ℚ) ≠ 0 := by positivity
  split_ifs with h
  · have hk : ((k.toNat : ℕ) : ℤ) = k := Int.toNat_of_nonneg h
    simp only [Nat.pow_eq, Nat.cast_pow, Nat.cast_one, mul_one]
    rw [← zpow_natCast, hk]
  · have hk : (((-k).toNat : ℕ) : ℤ) = -k := Int.toNat_of_nonneg (by omega)
    simp only [Nat.pow_eq, Nat.cast_pow, Nat.cast_one]
    rw [← zpow_natCast, hk, ← zpow_add₀ hb']
    simp

theorem scale_pos (ten two : ℤ) : 0 < (scale ten two).1 ∧ 0 < (scale ten two).2 := by
  simp only [scale, Nat.pow_eq]
  constructor <;> split_ifs <;> positivity

theorem scale_eq (ten two : ℤ) :
    ((scale ten two).1 : ℚ) = (10 : ℚ) ^ ten * (2 : ℚ) ^ two * (scale ten two).2 := by
  simp only [scale, Nat.cast_mul]
  rw [power_split (b := 10) (by decide), power_split (b := 2) (by decide)]
  push_cast
  ring

/-! ## Grids -/

theorem within_of_holds {m : ℕ} {e place : ℤ} {k : ℕ}
    (h : (neighbourhood m e).holds (k * (scale (-place) (e - 2)).2) (scale (-place) (e - 2)).1) :
    Within m e (k * (10 : ℚ) ^ place) := by
  obtain ⟨hup, hdown⟩ := scale_pos (-place) (e - 2)
  have hs := scale_eq (-place) (e - 2)
  set up := (scale (-place) (e - 2)).1
  set down := (scale (-place) (e - 2)).2
  have hd : (0 : ℚ) < down := by exact_mod_cast hdown
  have hc : (0 : ℚ) < (10 : ℚ) ^ (-place) * down := mul_pos (zpow_pos (by norm_num) _) hd
  -- a bound holds of the quotient if and only if it holds of what the quotient stands for
  have hl (b : ℕ) : (b : ℚ) * up = b * (2 : ℚ) ^ (e - 2) * ((10 : ℚ) ^ (-place) * down) := by
    rw [hs]
    ring
  have hr : (k : ℚ) * down = k * (10 : ℚ) ^ place * ((10 : ℚ) ^ (-place) * down) := by
    rw [zpow_neg]
    field_simp
  have hle (b : ℕ) : b * up ≤ k * down ↔ (b : ℚ) * (2 : ℚ) ^ (e - 2) ≤ k * (10 : ℚ) ^ place := by
    rw [← Nat.cast_le (α := ℚ), Nat.cast_mul, Nat.cast_mul, hl, hr, mul_le_mul_iff_left₀ hc]
  have hge (b : ℕ) : k * down ≤ b * up ↔ k * (10 : ℚ) ^ place ≤ (b : ℚ) * (2 : ℚ) ^ (e - 2) := by
    rw [← Nat.cast_le (α := ℚ), Nat.cast_mul, Nat.cast_mul, hl, hr, mul_le_mul_iff_left₀ hc]
  simp only [Neighbourhood.holds] at h
  simp only [Within]
  split_ifs at h ⊢ with hcl
  · simp only [Bool.and_eq_true, decide_eq_true_eq] at h
    exact ⟨(hle _).1 h.1, (hge _).1 h.2⟩
  · simp only [Bool.and_eq_true, decide_eq_true_eq] at h
    exact ⟨not_le.1 (mt (hge _).2 (not_le.2 h.1)), not_le.1 (mt (hle _).2 (not_le.2 h.2))⟩

theorem within_of_onGrid {m : ℕ} {e place : ℤ} {k : ℕ}
    (h : onGrid? (neighbourhood m e) e place = some k) : Within m e (k * (10 : ℚ) ^ place) := by
  simp only [onGrid?] at h
  split_ifs at h <;> exact within_of_holds (Option.some.inj h ▸ by assumption)

theorem Decimal.value_strip (fuel : ℕ) (d : Decimal) : (Decimal.strip fuel d).value = d.value := by
  induction fuel generalizing d with
  | zero => rfl
  | succ fuel ih =>
    rw [Decimal.strip]
    split_ifs with h
    · obtain ⟨-, hm⟩ : d.digits ≠ 0 ∧ d.digits % 10 = 0 := by simpa using h
      have hd : (d.digits : ℚ) = (d.digits / 10 : ℕ) * 10 := by
        exact_mod_cast (Nat.div_mul_cancel (Nat.dvd_of_mod_eq_zero hm)).symm
      rw [ih, Decimal.value, Decimal.value, hd, zpow_add_one₀ (by norm_num)]
      ring
    · rfl

theorem within_of_firstGrid {m : ℕ} {e magnitude : ℤ} {counts : List ℕ} {d : Decimal}
    (h : firstGrid? (neighbourhood m e) e magnitude counts = some d) : Within m e d.value := by
  induction counts with
  | nil => cases h
  | cons count rest ih =>
    simp only [firstGrid?] at h
    split at h
    · next k hk =>
      rw [← Option.some.inj h, Decimal.value_strip]
      exact within_of_onGrid hk
    · exact ih h

/-! ## Magnitudes -/

theorem ten_zpow_le_two_zpow {p q : ℤ} (h : 0 ≤ q ∧ 10 * p ≤ 3 * q ∨ q ≤ 0 ∧ 93 * p ≤ 28 * q) :
    (10 : ℚ) ^ p ≤ (2 : ℚ) ^ q := by
  have h10 : (0 : ℚ) ≤ (10 : ℚ) ^ p := by positivity
  have h2 : (0 : ℚ) ≤ (2 : ℚ) ^ q := by positivity
  rcases h with ⟨hq, hp⟩ | ⟨hq, hp⟩
  · -- the third power of ten is below the tenth power of two
    refine (pow_le_pow_iff_left₀ h10 h2 (n := 10) (by norm_num)).1 ?_
    calc ((10 : ℚ) ^ p) ^ 10 = (10 : ℚ) ^ (10 * p) := by rw [← zpow_natCast, ← zpow_mul]; ring_nf
      _ ≤ (10 : ℚ) ^ (3 * q) := zpow_le_zpow_right₀ (by norm_num) hp
      _ = ((10 : ℚ) ^ (3 : ℕ)) ^ q := by rw [zpow_mul]; norm_cast
      _ ≤ ((2 : ℚ) ^ (10 : ℕ)) ^ q := zpow_le_zpow_left₀ hq (by norm_num) (by norm_num)
      _ = ((2 : ℚ) ^ q) ^ 10 := by
        rw [← zpow_natCast, ← zpow_mul, ← zpow_natCast, ← zpow_mul, mul_comm]
  · -- the twenty-eighth power of ten is above the ninety-third power of two
    refine (pow_le_pow_iff_left₀ h10 h2 (n := 93) (by norm_num)).1 ?_
    calc ((10 : ℚ) ^ p) ^ 93 = (10 : ℚ) ^ (93 * p) := by rw [← zpow_natCast, ← zpow_mul]; ring_nf
      _ ≤ (10 : ℚ) ^ (28 * q) := zpow_le_zpow_right₀ (by norm_num) hp
      _ = ((10 : ℚ) ^ (28 : ℕ)) ^ q := by rw [zpow_mul]; norm_cast
      _ ≤ ((2 : ℚ) ^ (93 : ℕ)) ^ q := by
        have hi : ((2 : ℚ) ^ (93 : ℕ)) ^ (-q) ≤ ((10 : ℚ) ^ (28 : ℕ)) ^ (-q) :=
          zpow_le_zpow_left₀ (by omega) (by norm_num) (by norm_num)
        simpa only [zpow_neg, inv_inv] using inv_anti₀ (by positivity) hi
      _ = ((2 : ℚ) ^ q) ^ 93 := by
        rw [← zpow_natCast, ← zpow_mul, ← zpow_natCast, ← zpow_mul, mul_comm]

theorem two_zpow_log_le {num den : ℕ} (hn : num ≠ 0) :
    (2 : ℚ) ^ ((num.log2 : ℤ) - den.log2 - 1) * den ≤ num := by
  have hl : ((2 : ℚ) ^ num.log2) ≤ num := by exact_mod_cast Nat.log2_self_le hn
  have hr : (den : ℚ) ≤ (2 : ℚ) ^ (den.log2 + 1) := by exact_mod_cast (Nat.lt_log2_self).le
  calc (2 : ℚ) ^ ((num.log2 : ℤ) - den.log2 - 1) * den
      ≤ (2 : ℚ) ^ ((num.log2 : ℤ) - den.log2 - 1) * (2 : ℚ) ^ (den.log2 + 1) := by gcongr
    _ = (2 : ℚ) ^ num.log2 := by
      rw [← zpow_natCast, ← zpow_natCast, ← zpow_add₀ (by norm_num)]
      congr 1
      push_cast
      ring
    _ ≤ num := hl

theorem decimalMagnitude_le {num den : ℕ} (hn : num ≠ 0)
    (hl : (num.log2 : ℤ) - den.log2 ≤ 1100) (hr : -1100 ≤ (num.log2 : ℤ) - den.log2) :
    (10 : ℚ) ^ (decimalMagnitude num den - 1) * den ≤ num := by
  have hlow (k : ℤ) (h : ¬ num * (scale k 0).2 < (scale k 0).1 * den) :
      (10 : ℚ) ^ (k + 1 - 1) * den ≤ num := by
    have hs := scale_eq k 0
    have hd : (0 : ℚ) < (scale k 0).2 := by exact_mod_cast (scale_pos k 0).2
    have hc : ((scale k 0).1 : ℚ) * den ≤ num * (scale k 0).2 := by exact_mod_cast not_lt.1 h
    refine le_of_mul_le_mul_right ?_ hd
    calc (10 : ℚ) ^ (k + 1 - 1) * den * (scale k 0).2 = (scale k 0).1 * den := by
          rw [hs, add_sub_cancel_right, zpow_zero]; ring
      _ ≤ num * (scale k 0).2 := hc
  simp only [decimalMagnitude]
  split_ifs with h0 h1 h2
  · set l : ℤ := (num.log2 : ℤ) - den.log2
    have hp : (10 : ℚ) ^ (Int.fdiv (l * 30103) 100000 - 1 - 1) ≤ (2 : ℚ) ^ (l - 1) := by
      refine ten_zpow_le_two_zpow ?_
      rw [Int.fdiv_eq_ediv_of_nonneg _ (by norm_num)]
      omega
    calc (10 : ℚ) ^ (Int.fdiv (l * 30103) 100000 - 1 - 1) * den ≤ (2 : ℚ) ^ (l - 1) * den := by
          gcongr
      _ ≤ num := two_zpow_log_le hn
  · exact hlow _ (by simpa only [decide_eq_true_eq] using h0)
  · rw [show ∀ k : ℤ, k + 2 = k + 1 + 1 by intro k; ring]
    exact hlow _ (by simpa only [decide_eq_true_eq] using h1)
  · rw [show ∀ k : ℤ, k + 3 = k + 2 + 1 by intro k; ring]
    exact hlow _ (by simpa only [decide_eq_true_eq] using h2)

/-- A grid whose unit is small against a number meets its interval. -/
theorem exists_onGrid {m : ℕ} {e place : ℤ} (hm : Normal m e)
    (hp : (10 : ℚ) ^ (place + 16) ≤ m * (2 : ℚ) ^ e) :
    (onGrid? (neighbourhood m e) e place).isSome := by
  obtain ⟨hup, hdown⟩ := scale_pos (-place) (e - 2)
  have hs := scale_eq (-place) (e - 2)
  simp only [onGrid?]
  set up := (scale (-place) (e - 2)).1
  set down := (scale (-place) (e - 2)).2
  have hd : (0 : ℚ) < down := by exact_mod_cast hdown
  have hbit : hiddenBit = 4503599627370496 := by rw [hiddenBit_eq]; norm_num
  -- the unit of the grid, in that of the interval
  have hsmall (c : ℕ) (hc : c * m < 10 ^ 16) : c * down < 4 * up := by
    have hpow : (10 : ℚ) ^ (place + 16) = (10 : ℚ) ^ place * 10 ^ 16 := by
      rw [zpow_add₀ (by norm_num)]
      norm_cast
    have hmul : (c : ℚ) * (10 : ℚ) ^ place * 10 ^ 16 < (2 : ℚ) ^ e * 10 ^ 16 := by
      calc (c : ℚ) * (10 : ℚ) ^ place * 10 ^ 16 ≤ c * (m * (2 : ℚ) ^ e) := by
            rw [mul_assoc, ← hpow]; gcongr
        _ = ((c * m : ℕ) : ℚ) * (2 : ℚ) ^ e := by push_cast; ring
        _ < (10 ^ 16 : ℕ) * (2 : ℚ) ^ e := by gcongr
        _ = (2 : ℚ) ^ e * 10 ^ 16 := by push_cast; ring
    have hlt := lt_of_mul_lt_mul_right hmul (by positivity)
    have hup' : (4 : ℚ) * up = (2 : ℚ) ^ e * ((10 : ℚ) ^ place)⁻¹ * down := by
      rw [hs, zpow_neg, zpow_sub₀ (by norm_num)]
      ring
    have hdiv : (c : ℚ) < (2 : ℚ) ^ e * ((10 : ℚ) ^ place)⁻¹ := by
      rw [← div_eq_mul_inv, lt_div_iff₀ (by positivity)]
      exact hlt
    have hfin : (c : ℚ) * down < 4 * up := by
      rw [hup']
      gcongr
    exact_mod_cast hfin
  have hlt := hm.lt
  have hone : down < 4 * up := by simpa using hsmall 1 (by omega)
  set below := (neighbourhood m e).value * up / down
  set rest := (neighbourhood m e).value * up % down
  have hdiv : down * below + rest = 4 * m * up := Nat.div_add_mod _ _
  have hrest : rest < down := Nat.mod_lt _ hdown
  have hhigh : (neighbourhood m e).high = 4 * m + 2 := rfl
  -- the nearer neighbour is at most half a unit away
  have hin (k : ℕ) (hk : k = below ∧ 2 * rest ≤ down ∨ k = below + 1 ∧ down ≤ 2 * rest) :
      (neighbourhood m e).holds (k * down) up = true := by
    have hk2 : 2 * (4 * m * up) ≤ 2 * (k * down) + down ∧ 2 * (k * down) ≤ 2 * (4 * m * up) + down := by
      rcases hk with ⟨rfl, h⟩ | ⟨rfl, h⟩
      · rw [← hdiv, mul_comm below]
        omega
      · rw [← hdiv, add_mul, mul_comm below]
        omega
    have hl : (neighbourhood m e).low * up < k * down := by
      have hm0 := hm.pos
      simp only [neighbourhood]
      split_ifs with hb
      · have htwo : 2 * down < 4 * up := hsmall 2 (by simp_all)
        have : (4 * m - 1) * up + up = 4 * m * up := by
          rw [← Nat.succ_mul]; congr 1; omega
        omega
      · have : (4 * m - 2) * up + 2 * up = 4 * m * up := by
          rw [← add_mul]; congr 1; omega
        omega
    have hh : k * down < (neighbourhood m e).high * up := by
      rw [hhigh, add_mul]
      omega
    simp [Neighbourhood.holds, hl, hh, hl.le, hh.le]
  have hnear : (neighbourhood m e).holds
      ((if 2 * rest < down then below else if down < 2 * rest then below + 1
        else if below % 2 = 0 then below else below + 1) * down) up = true := by
    refine hin _ ?_
    split_ifs <;> omega
  rw [if_pos hnear]
  rfl

theorem exists_firstGrid {m : ℕ} {e magnitude : ℤ} {counts : List ℕ} {count : ℕ}
    (hc : count ∈ counts)
    (h : (onGrid? (neighbourhood m e) e (magnitude - count)).isSome) :
    (firstGrid? (neighbourhood m e) e magnitude counts).isSome := by
  induction counts with
  | nil => cases hc
  | cons first rest ih =>
    simp only [firstGrid?]
    split
    · rfl
    · next hn =>
      rcases List.mem_cons.1 hc with rfl | hc
      · rw [hn] at h
        cases h
      · exact ih hc

theorem log_bounds {m : ℕ} {e : ℤ} (hm : Normal m e) :
    ((m * (scale 0 e).1).log2 : ℤ) - (scale 0 e).2.log2 ≤ 1100 ∧
      -1100 ≤ ((m * (scale 0 e).1).log2 : ℤ) - (scale 0 e).2.log2 := by
  have hlt : m < 2 ^ 53 := hm.lt
  have hleast : -1074 ≤ e := hm.least
  have hmost := hm.most
  have hlog {n k : ℕ} (hn : n ≠ 0) (h : n < 2 ^ k) : n.log2 < k := (Nat.log2_lt hn).2 h
  simp only [scale, Nat.pow_eq, le_refl, if_true, Int.toNat_zero, pow_zero, one_mul]
  split_ifs with he
  · have hup : (m * 2 ^ e.toNat).log2 < 53 + 971 := by
      refine hlog (Nat.mul_ne_zero hm.pos.ne' (by positivity)) ?_
      calc m * 2 ^ e.toNat < 2 ^ 53 * 2 ^ e.toNat := by gcongr
        _ ≤ 2 ^ 53 * 2 ^ 971 := by gcongr <;> omega
        _ = 2 ^ (53 + 971) := (pow_add _ _ _).symm
    have hone : Nat.log2 1 = 0 := by decide
    omega
  · have hup : (m * 1).log2 < 53 := hlog (by simpa using hm.pos.ne') (by simpa using hlt)
    have hdown : (2 ^ (-e).toNat).log2 = (-e).toNat := Nat.log2_two_pow
    omega

/-- The shortest decimal of a number rounds to it. -/
theorem within_shortest {m : ℕ} {e : ℤ} (hm : Normal m e) : Within m e (shortest m e).value := by
  have hs := scale_eq 0 e
  have hpos := scale_pos 0 e
  simp only [shortest]
  split
  · next d hd => exact within_of_firstGrid hd
  · next hn =>
    exfalso
    have hup : m * (scale 0 e).1 ≠ 0 := Nat.mul_ne_zero hm.pos.ne' hpos.1.ne'
    have hmag : (10 : ℚ) ^ (decimalMagnitude (m * (scale 0 e).1) (scale 0 e).2 - 1) ≤
        m * (2 : ℚ) ^ e := by
      have hl := decimalMagnitude_le hup (log_bounds hm).1 (log_bounds hm).2
      have hden : (0 : ℚ) < (scale 0 e).2 := by exact_mod_cast hpos.2
      refine le_of_mul_le_mul_right (hl.trans (le_of_eq ?_)) hden
      rw [Nat.cast_mul, hs, zpow_zero]
      ring
    have hg : (onGrid? (neighbourhood m e) e
        (decimalMagnitude (m * (scale 0 e).1) (scale 0 e).2 - (17 : ℕ))).isSome :=
      exists_onGrid hm (by simpa [sub_add] using hmag)
    have hmem : 17 ∈ List.range' 1 17 := by decide
    have := exists_firstGrid hmem hg
    rw [hn] at this
    cases this

/-! ## Neighbours -/

theorem Within.le_high {m : ℕ} {e : ℤ} {q : ℚ} (h : Within m e q) :
    q ≤ (4 * m + 2 : ℕ) * (2 : ℚ) ^ (e - 2) ∧
      (m % 2 = 1 → q < (4 * m + 2 : ℕ) * (2 : ℚ) ^ (e - 2)) := by
  simp only [Within] at h
  split_ifs at h with hp
  · refine ⟨h.2, fun hodd => ?_⟩
    simp only [neighbourhood, decide_eq_true_eq] at hp
    omega
  · exact ⟨h.2.le, fun _ => h.2⟩

theorem Within.low_le {m : ℕ} {e : ℤ} {q : ℚ} (h : Within m e q) :
    (neighbourhood m e).low * (2 : ℚ) ^ (e - 2) ≤ q ∧
      (m % 2 = 1 → (neighbourhood m e).low * (2 : ℚ) ^ (e - 2) < q) := by
  simp only [Within] at h
  split_ifs at h with hp
  · refine ⟨h.1, fun hodd => ?_⟩
    simp only [neighbourhood, decide_eq_true_eq] at hp
    omega
  · exact ⟨h.1.le, fun _ => h.1⟩

theorem high_le_low {m n : ℕ} {e f : ℤ} (hm : Normal m e) (hn : Normal n f)
    (h : e < f ∨ e = f ∧ m < n) :
    4 * m + 2 ≤ (neighbourhood n f).low * 2 ^ (f - e).toNat ∧
      (m % 2 = 0 → n % 2 = 0 → 4 * m + 2 < (neighbourhood n f).low * 2 ^ (f - e).toNat) := by
  have hbit : hiddenBit = 4503599627370496 := by rw [hiddenBit_eq]; norm_num
  have hlt := hm.lt
  have hleast := hm.least
  rcases h with h | ⟨rfl, h⟩
  · -- the greater number has all its bits
    have hfull : hiddenBit ≤ n := hn.full.resolve_right (by omega)
    have hlow : 4 * hiddenBit - 1 ≤ (neighbourhood n f).low := by
      simp only [neighbourhood]
      split_ifs with hb
      · omega
      · have hne : n ≠ hiddenBit := fun he => hb (by simp [he]; omega)
        omega
    have htwo : 2 ≤ 2 ^ (f - e).toNat := by
      calc 2 = 2 ^ 1 := rfl
        _ ≤ 2 ^ (f - e).toNat := Nat.pow_le_pow_right (by norm_num) (by omega)
    have hmul : (4 * hiddenBit - 1) * 2 ≤ (neighbourhood n f).low * 2 ^ (f - e).toNat :=
      Nat.mul_le_mul hlow htwo
    exact ⟨by omega, fun _ _ => by omega⟩
  · have hlow : (neighbourhood n e).low = 4 * n - 2 := by
      simp only [neighbourhood]
      split_ifs with hb
      · obtain ⟨rfl, hl⟩ : n = hiddenBit ∧ leastExponent < e := by simpa using hb
        rcases hm.full with hf | hf
        · omega
        · omega
      · rfl
    rw [hlow, sub_self, Int.toNat_zero, pow_zero, mul_one]
    exact ⟨by omega, fun _ _ => by omega⟩

theorem Within.lt {m n : ℕ} {e f : ℤ} {q r : ℚ} (hm : Normal m e) (hn : Normal n f)
    (h : e < f ∨ e = f ∧ m < n) (hq : Within m e q) (hr : Within n f r) : q < r := by
  have hU : (0 : ℚ) < (2 : ℚ) ^ (e - 2) := by positivity
  have hscale : ((neighbourhood n f).low * 2 ^ (f - e).toNat : ℕ) * (2 : ℚ) ^ (e - 2) =
      (neighbourhood n f).low * (2 : ℚ) ^ (f - 2) := by
    have he : ((f - e).toNat : ℤ) = f - e := Int.toNat_of_nonneg (by omega)
    push_cast
    rw [mul_assoc, ← zpow_natCast, he, ← zpow_add₀ (by norm_num)]
    congr 2
    ring
  obtain ⟨hle, hlt⟩ := high_le_low hm hn h
  have hbetween : ((4 * m + 2 : ℕ) : ℚ) * (2 : ℚ) ^ (e - 2) ≤
      (neighbourhood n f).low * (2 : ℚ) ^ (f - 2) := by
    rw [← hscale]
    gcongr
  rcases Nat.mod_two_eq_zero_or_one m with hm2 | hm2
  · rcases Nat.mod_two_eq_zero_or_one n with hn2 | hn2
    · have hstrict : ((4 * m + 2 : ℕ) : ℚ) * (2 : ℚ) ^ (e - 2) <
          (neighbourhood n f).low * (2 : ℚ) ^ (f - 2) := by
        rw [← hscale]
        have := hlt hm2 hn2
        gcongr
      exact (hq.le_high.1.trans_lt hstrict).trans_le hr.low_le.1
    · exact (hq.le_high.1.trans hbetween).trans_lt (hr.low_le.2 hn2)
  · exact ((hq.le_high.2 hm2).trans_le hbetween).trans_le hr.low_le.1

/-- No number rounds to two. -/
theorem Within.unique {m n : ℕ} {e f : ℤ} {q : ℚ} (hm : Normal m e) (hn : Normal n f)
    (h : Within m e q) (h' : Within n f q) : m = n ∧ e = f := by
  rcases lt_trichotomy e f with he | rfl | he
  · exact absurd (Within.lt hm hn (.inl he) h h') (lt_irrefl q)
  · rcases lt_trichotomy m n with hlt | rfl | hlt
    · exact absurd (Within.lt hm hn (.inr ⟨rfl, hlt⟩) h h') (lt_irrefl q)
    · exact ⟨rfl, rfl⟩
    · exact absurd (Within.lt hn hm (.inr ⟨rfl, hlt⟩) h' h) (lt_irrefl q)
  · exact absurd (Within.lt hn hm (.inl he) h' h) (lt_irrefl q)

/-- Different numbers have different shortest decimals. -/
theorem shortest_value_inj {m n : ℕ} {e f : ℤ} (hm : Normal m e) (hn : Normal n f)
    (h : (shortest m e).value = (shortest n f).value) : m = n ∧ e = f :=
  Within.unique hm hn (within_shortest hm) (h ▸ within_shortest hn)

theorem shortest_value_pos {m : ℕ} {e : ℤ} (hm : Normal m e) : 0 < (shortest m e).value := by
  refine lt_of_lt_of_le ?_ (within_shortest hm).low_le.1
  have hlow : 0 < (neighbourhood m e).low := by
    have := hm.pos
    simp only [neighbourhood]
    split_ifs <;> omega
  positivity

/-! ## Bits -/

theorem exists_reading {x : Binary64} (h : x.isFinite) :
    ∃ negative m e, x.reading = .finite negative m e := by
  unfold isFinite at h
  cases hr : x.reading with
  | nan => simp [hr] at h
  | infinite s => simp [hr] at h
  | finite s m e => exact ⟨s, m, e, rfl⟩

theorem bits_of_reading {x : Binary64} {negative : Bool} {m : ℕ} {e : ℤ}
    (h : x.reading = .finite negative m e) :
    ∃ exponent fraction : ℕ, exponent < 2047 ∧ fraction < hiddenBit ∧
      x.bits.toNat = (if negative then signBit else 0) + exponent * hiddenBit + fraction ∧
      (exponent = 0 ∧ m = fraction ∧ e = leastExponent ∨
        exponent ≠ 0 ∧ m = fraction + hiddenBit ∧ e = exponent - 1075) := by
  have hbit : hiddenBit = 4503599627370496 := by rw [hiddenBit_eq]; norm_num
  have hsign : signBit = 9223372036854775808 := by simp [signBit]
  have hn : x.bits.toNat < 18446744073709551616 := x.bits.toNat_lt
  simp only [reading, hbit, hsign] at h ⊢
  refine ⟨x.bits.toNat / 4503599627370496 % 2048, x.bits.toNat % 4503599627370496, ?_⟩
  split_ifs at h with hinf hfrac hzero
  · simp only [Reading.finite.injEq] at h
    obtain ⟨rfl, rfl, rfl⟩ := h
    refine ⟨by omega, by omega, ?_, .inl ⟨hzero, rfl, rfl⟩⟩
    simp only [decide_eq_true_eq]
    split_ifs <;> omega
  · simp only [Reading.finite.injEq] at h
    obtain ⟨rfl, rfl, rfl⟩ := h
    refine ⟨by omega, by omega, ?_, .inr ⟨hzero, rfl, rfl⟩⟩
    simp only [decide_eq_true_eq]
    split_ifs <;> omega

theorem normal_of_reading {x : Binary64} {negative : Bool} {m : ℕ} {e : ℤ}
    (h : x.reading = .finite negative m e) (hm : m ≠ 0) : Normal m e := by
  have hbit : hiddenBit = 4503599627370496 := by rw [hiddenBit_eq]; norm_num
  have hleast : leastExponent = -1074 := rfl
  obtain ⟨exponent, fraction, he, hf, -, ⟨rfl, rfl, rfl⟩ | ⟨h0, rfl, rfl⟩⟩ := bits_of_reading h
  · exact ⟨by omega, by omega, le_rfl, by omega, .inr rfl⟩
  · exact ⟨by omega, by omega, by omega, by omega, .inl (by omega)⟩

theorem eq_of_reading_eq {x y : Binary64} {negative : Bool} {m : ℕ} {e : ℤ}
    (hx : x.reading = .finite negative m e) (hy : y.reading = .finite negative m e) : x = y := by
  have hbit : hiddenBit = 4503599627370496 := by rw [hiddenBit_eq]; norm_num
  have hleast : leastExponent = -1074 := rfl
  obtain ⟨i, f, hi, hf, hxn, hxc⟩ := bits_of_reading hx
  obtain ⟨j, g, hj, hg, hyn, hyc⟩ := bits_of_reading hy
  obtain ⟨rfl, rfl⟩ : i = j ∧ f = g := by omega
  have : x.bits = y.bits := UInt64.toNat_inj.1 (hxn.trans hyn.symm)
  cases x
  cases y
  simpa using this

end TypeAtlas.Binary64
