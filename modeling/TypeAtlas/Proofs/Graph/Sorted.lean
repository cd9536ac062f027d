import Mathlib.Algebra.Order.Field.Rat
import Mathlib.Algebra.Order.Ring.Cast
import Mathlib.Data.List.Nodup
import Mathlib.Data.List.Sort
import Mathlib.Data.Prod.Lex
import Mathlib.Data.String.Basic
import TypeAtlas.Graph.Hash
import TypeAtlas.Number.Basic

/-! # Sorted content

What a digest covers in sorted order does not depend on the order in which it is given, as long as
what is sorted is told apart by what it is sorted by. Finite numbers are compared by their values, and
lie between the infinite ones. What is not a number is less than no other.
-/

namespace TypeAtlas.Binary64

/-! ## The order of floating-point numbers -/

variable {x y : Binary64} {a b q : Fraction}

def Fraction.value (q : Fraction) : ℚ := q.num / q.den

theorem Fraction.compare_eq_lt (ha : 0 < a.den) (hb : 0 < b.den) :
    a.compare b = .lt ↔ a.value < b.value := by
  rw [Fraction.compare, Int.compare_eq_lt, value, value, div_lt_div_iff₀ (by simpa) (by simpa)]
  norm_cast

theorem den_pos (h : x.fraction? = some q) : 0 < q.den := by
  unfold fraction? at h
  split at h
  · dsimp only at h
    split at h
    · obtain rfl := Option.some.inj h
      exact Nat.one_pos
    · obtain rfl := Option.some.inj h
      exact Nat.two_pow_pos _
  · cases h

/-- Where a number stands: first whatever is not a number, then the numbers from one end to the other. -/
def standing (x : Binary64) : ℕ ×ₗ ℚ :=
  match x.fraction?, x.reading with
  | some q, _ => toLex (2, q.value)
  | none, .infinite negative => toLex (if negative then 1 else 3, 0)
  | none, _ => toLex (0, 0)

theorem exists_fraction {negative : Bool} {m : ℕ} {e : ℤ} (h : x.reading = .finite negative m e) :
    ∃ q, x.fraction? = some q := by
  simp only [fraction?, h]
  split
  · exact ⟨_, rfl⟩
  · exact ⟨_, rfl⟩

theorem lt_iff_standing_lt (hx : x.reading ≠ .nan) (hy : y.reading ≠ .nan) :
    (Number.float x).lt (.float y) ↔ x.standing < y.standing := by
  have hinfinite {z : Binary64} {negative : Bool} (h : z.reading = .infinite negative) :
      z.fraction? = none := by rw [fraction?, h]
  simp only [Number.lt, Number.compare?, Number.fraction?, Number.toBinary64, standing]
  cases hrx : x.reading with
  | nan => exact absurd hrx hx
  | infinite s =>
    rw [hinfinite hrx]
    cases hry : y.reading with
    | nan => exact absurd hry hy
    | infinite t =>
      rw [hinfinite hry]
      cases s <;> cases t <;> simp [Prod.Lex.toLex_lt_toLex, compare]
    | finite t m e =>
      obtain ⟨r, hr⟩ := exists_fraction hry
      rw [hr]
      cases s <;> simp [Prod.Lex.toLex_lt_toLex]
  | finite s m e =>
    obtain ⟨q, hq⟩ := exists_fraction hrx
    rw [hq]
    cases hry : y.reading with
    | nan => exact absurd hry hy
    | infinite t =>
      rw [hinfinite hry]
      cases t <;> simp [Prod.Lex.toLex_lt_toLex]
    | finite t n f =>
      obtain ⟨r, hr⟩ := exists_fraction hry
      rw [hr]
      simp [Fraction.compare_eq_lt (den_pos hq) (den_pos hr), Prod.Lex.toLex_lt_toLex]

theorem lt_eq_false (h : x.reading = .nan ∨ y.reading = .nan) : (Number.float x).lt (.float y) = false := by
  have hnan {z : Binary64} (h : z.reading = .nan) : z.fraction? = none := by rw [fraction?, h]
  simp only [Number.lt, Number.compare?, Number.fraction?, Number.toBinary64]
  rcases h with h | h
  · rw [hnan h, h]
    rfl
  · rw [hnan h, h]
    cases x.reading <;> cases x.fraction? <;> rfl

end TypeAtlas.Binary64

namespace TypeAtlas

/-! ## Sorted content -/

/-- Things that are told apart by their keys are sorted alike, however they are given. -/
theorem mergeSort_eq_of_perm {α κ : Type} [LE κ] [DecidableLE κ] [Std.IsLinearOrder κ] (key : α → κ)
    {l m : List α} (h : l.Perm m) (hkey : ∀ a ∈ l, ∀ b ∈ l, key a = key b → a = b) :
    (l.mergeSort fun a b => decide (key a ≤ key b)) = m.mergeSort fun a b => decide (key a ≤ key b) := by
  have hsorted (l : List α) : (l.mergeSort fun a b => decide (key a ≤ key b)).Pairwise
      fun a b => key a ≤ key b := by
    have hle := @List.pairwise_mergeSort _ (fun a b => decide (key a ≤ key b))
      (fun a b c => by simpa using Std.le_trans) (fun a b => by simpa using Std.le_total) l
    simpa using hle
  refine List.Perm.eq_of_pairwise (fun a b ha hb hab hba => ?_) (hsorted l) (hsorted m)
    ((List.mergeSort_perm l _).trans (h.trans (List.mergeSort_perm m _).symm))
  exact hkey a (List.mem_mergeSort.1 ha) b (h.mem_iff.2 (List.mem_mergeSort.1 hb)) (Std.le_antisymm hab hba)

/-! ## Values -/

theorem Number.lt_int {m n : ℤ} : (Number.int m).lt (.int n) = decide (m < n) := by
  rw [Bool.eq_iff_iff]
  simp [lt, compare?, fraction?, Binary64.Fraction.compare, Int.compare_eq_lt]

namespace Scalar

variable {v w : Scalar} {vs ws : List Scalar}

/-- What a value is sorted by: its sort, and where it stands among its like. -/
def key : Scalar → ℕ ×ₗ (ℕ ×ₗ ℚ) ×ₗ String
  | bool b => toLex (0, toLex (toLex (0, if b then 1 else 0), ""))
  | number (.float x) => toLex (1, toLex (x.standing, ""))
  | number (.int n) => toLex (2, toLex (toLex (0, n), ""))
  | text s => toLex (3, toLex (toLex (0, 0), s))

theorem le_float {x y : Binary64} :
    (number (.float x)).le (number (.float y)) = !(Number.float y).lt (.float x) := rfl

theorem le_float_iff {x y : Binary64} (h : (number (.float x)).le (number (.float y)) →
      (number (.float y)).le (number (.float x)) → number (.float x) = number (.float y)) :
    (number (.float x)).le (number (.float y)) ↔
      (number (.float x)).key ≤ (number (.float y)).key := by
  rw [le_float, le_float] at h
  rw [le_float]
  by_cases hnan : x.reading = .nan ∨ y.reading = .nan
  · rw [Binary64.lt_eq_false hnan, Binary64.lt_eq_false hnan.symm] at h
    rw [Binary64.lt_eq_false hnan.symm, h rfl rfl]
    exact iff_of_true rfl le_rfl
  · obtain ⟨hx, hy⟩ := not_or.1 hnan
    rw [Bool.not_eq_true', ← Bool.not_eq_true, Binary64.lt_iff_standing_lt hy hx, not_lt]
    simp [key, Prod.Lex.toLex_lt_toLex, le_iff_lt_or_eq]

/-- The order of values is that of their keys, unless one of two is not a number and the other is. -/
theorem le_iff_key_le (h : v.le w → w.le v → v = w) : v.le w ↔ v.key ≤ w.key := by
  by_cases hrank : v.rank = w.rank
  · rcases v with b | (n | x) | s <;> rcases w with c | (m | y) | t <;> cases hrank
    · cases b <;> cases c <;>
        simp [le, rank, key, toNumber?, Number.lt_int, Prod.Lex.toLex_le_toLex, Prod.Lex.toLex_lt_toLex]
    · simp [le, rank, key, toNumber?, Number.lt_int, Prod.Lex.toLex_lt_toLex, le_iff_lt_or_eq, Int.cast_lt]
    · exact le_float_iff h
    · simp [le, rank, key, Prod.Lex.toLex_le_toLex]
  · rcases v with b | (n | x) | s <;> rcases w with c | (m | y) | t <;>
      simp_all [le, rank, key, Prod.Lex.toLex_le_toLex]

theorem sortValues_eq_insertionSort (vs : List Scalar) :
    sortValues vs = vs.insertionSort fun v w => v.le w := by
  induction vs with
  | nil => rfl
  | cons v vs ih =>
    rw [List.insertionSort_cons_eq_take_drop, ← ih]
    simp [sortValues]

@[simp] theorem mem_sortValues : v ∈ sortValues vs ↔ v ∈ vs := by
  rw [sortValues_eq_insertionSort, List.mem_insertionSort]

theorem sortValues_eq_of_perm (h : vs.Perm ws)
    (hsep : ∀ v ∈ vs, ∀ w ∈ vs, v.le w → w.le v → v = w) : sortValues vs = sortValues ws := by
  have hkey (us : List Scalar) (hus : ∀ v ∈ us, v ∈ vs) :
      sortValues us = us.insertionSort fun v w => v.key ≤ w.key := by
    have hmap := List.map_insertionSort (fun v w => v.le w) (fun v w => v.key ≤ w.key) (fun v => v) us
      fun v hv w hw => le_iff_key_le (hsep v (hus v hv) w (hus w hw))
    rwa [List.map_id', List.map_id', ← sortValues_eq_insertionSort] at hmap
  rw [hkey vs fun _ hv => hv, hkey ws fun _ hw => h.mem_iff.2 hw]
  refine List.Perm.eq_of_pairwise (fun v w hv hw hvw hwv => ?_) (List.pairwise_insertionSort _ vs)
    (List.pairwise_insertionSort _ ws)
    ((List.perm_insertionSort _ vs).trans (h.trans (List.perm_insertionSort _ ws).symm))
  rw [List.mem_insertionSort] at hv hw
  have hw := h.mem_iff.2 hw
  exact hsep v hv w hw ((le_iff_key_le (hsep v hv w hw)).2 hvw) ((le_iff_key_le (hsep w hw v hv)).2 hwv)

end Scalar

/-- The order tells different values of a discriminant apart: there are not both zeros, and if one is
not a number, there are no other floating-point numbers. -/
def Discriminant.isSeparated (δ : Discriminant) : Bool :=
  δ.values.all fun v => δ.values.all fun w => !(v.le w && w.le v) || v == w

/-! ## Payloads -/

theorem unionPayload_eq_of_perm {δ δ' : Discriminant} (hproperty : δ.property = δ'.property)
    (hvalues : δ.values.Perm δ'.values) (hsep : δ.isSeparated) :
    unionPayload (some δ) = unionPayload (some δ') := by
  have hle : ∀ v ∈ δ.values, ∀ w ∈ δ.values, v.le w → w.le v → v = w := by
    simpa [Discriminant.isSeparated, or_iff_not_imp_left] using hsep
  rw [unionPayload, unionPayload, hproperty, Scalar.sortValues_eq_of_perm hvalues hle]

theorem enumPayload_eq_of_perm {ms ms' : List EnumMember} (h : ms.Perm ms')
    (hnames : (ms.map EnumMember.name).Nodup) : enumPayload ms = enumPayload ms' := by
  rw [enumPayload, enumPayload, sortMembers, sortMembers,
    mergeSort_eq_of_perm EnumMember.name h fun _ ha _ hb => List.inj_on_of_nodup_map hnames ha hb]

theorem Hasher.sortDigests_eq_of_perm {ds es : List String} (h : ds.Perm es) :
    sortDigests ds = sortDigests es :=
  mergeSort_eq_of_perm (fun d => d) h fun _ _ _ _ he => he

end TypeAtlas
