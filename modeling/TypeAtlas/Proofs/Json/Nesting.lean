import Mathlib.Data.Int.Notation
import TypeAtlas.Json.Reader
import TypeAtlas.Proofs.Json.Encodable

/-! # Which values can be written

Exactly those can be written whose integers fit 64 bits, which hold no moments, and whose containers
are not nested too deeply. Empty containers do not count as nested.

A value that was read from a document can be written again, unless it is nested too deeply: its
integers fit 64 bits, since larger ones are read as floating-point numbers, and it holds no moments.
-/

namespace TypeAtlas

namespace Datum

mutual

/-- Whether all integers in a value fit 64 bits, and no moment is among its parts. -/
def encodable : Datum → Bool
  | .number (.int n) => Json.encodable n
  | .moment _ => false
  | .list items => encodableList items
  | .record fields => encodableFields fields
  | _ => true

def encodableList : List Datum → Bool
  | [] => true
  | x :: xs => encodable x && encodableList xs

def encodableFields : List (String × Datum) → Bool
  | [] => true
  | (_, x) :: xs => encodable x && encodableFields xs

end

mutual

/-- How many containers that are not empty are nested in a value. -/
def nesting : Datum → ℕ
  | .list items => nestingList items
  | .record fields => nestingFields fields
  | _ => 0

/-- The nesting of a container of these items. -/
def nestingList : List Datum → ℕ
  | [] => 0
  | x :: xs => max (nesting x + 1) (nestingList xs)

def nestingFields : List (String × Datum) → ℕ
  | [] => 0
  | (_, x) :: xs => max (nesting x + 1) (nestingFields xs)

end

variable {xs : List Datum} {fs : List (String × Datum)} {k : ℕ}

theorem encodableList_iff : encodableList xs ↔ ∀ x ∈ xs, x.encodable := by
  induction xs with
  | nil => simp [encodableList]
  | cons x xs ih => simp [encodableList, ih]

theorem encodableFields_eq : encodableFields fs = encodableList (fs.map Prod.snd) := by
  induction fs with
  | nil => rfl
  | cons f fs ih => rw [encodableFields, List.map_cons, encodableList, ih]

theorem nestingList_le : nestingList xs ≤ k ↔ ∀ x ∈ xs, x.nesting + 1 ≤ k := by
  induction xs with
  | nil => simp [nestingList]
  | cons x xs ih => simp only [nestingList, Nat.max_le, ih, List.forall_mem_cons]

theorem nestingFields_eq : nestingFields fs = nestingList (fs.map Prod.snd) := by
  induction fs with
  | nil => rfl
  | cons f fs ih => rw [nestingFields, List.map_cons, nestingList, ih]

theorem forall_fits_iff {level depth : ℕ} (hxs : xs ≠ []) :
    (level < depth ∧ ∀ x ∈ xs, x.encodable ∧ level + 1 + x.nesting ≤ depth) ↔
      encodableList xs ∧ level + nestingList xs ≤ depth := by
  constructor
  · rintro ⟨hl, h⟩
    refine ⟨encodableList_iff.2 fun x hx => (h x hx).1, ?_⟩
    have hle : nestingList xs ≤ depth - level := by
      rw [nestingList_le]
      intro x hx
      have := (h x hx).2
      omega
    omega
  · rintro ⟨hencodable, h⟩
    have hle : nestingList xs ≤ depth - level := by omega
    rw [nestingList_le] at hle
    obtain ⟨x, hx⟩ := List.exists_mem_of_ne_nil xs hxs
    have hx := hle x hx
    refine ⟨by omega, fun y hy => ⟨encodableList_iff.1 hencodable y hy, ?_⟩⟩
    have hy := hle y hy
    omega

end Datum

namespace Json

theorem exists_write_list_iff {style : Style} {level : ℕ} {xs : List Datum} (hxs : xs ≠ []) :
    (∃ x, write style level (.list xs) = .ok x) ↔
      level < maxDepth ∧ ∀ v ∈ xs, ∃ y, write style (level + 1) v = .ok y := by
  constructor
  · rintro ⟨x, hx⟩
    refine ⟨?_, write_list_eq_ok hx⟩
    obtain ⟨v, vs, rfl⟩ := List.exists_cons_of_ne_nil hxs
    rw [write] at hx
    split at hx
    · cases hx
    · omega
  · rintro ⟨hl, h⟩
    exact exists_write_list hl h

theorem exists_write_record_iff {style : Style} {level : ℕ} {fs : List (String × Datum)}
    (hfs : fs ≠ []) :
    (∃ x, write style level (.record fs) = .ok x) ↔
      level < maxDepth ∧ ∀ f ∈ fs, ∃ y, write style (level + 1) f.2 = .ok y := by
  constructor
  · rintro ⟨x, hx⟩
    refine ⟨?_, write_record_eq_ok hx⟩
    obtain ⟨f, fs, rfl⟩ := List.exists_cons_of_ne_nil hfs
    rw [write] at hx
    split at hx
    · cases hx
    · omega
  · rintro ⟨hl, h⟩
    exact exists_write_record hl h

/-- A value can be written exactly if it is encodable and fits below the level. -/
theorem exists_write_iff {style : Style} {level : ℕ} (hl : level ≤ maxDepth) (v : Datum) :
    (∃ x, write style level v = .ok x) ↔ v.encodable ∧ level + v.nesting ≤ maxDepth := by
  match v with
  | .null | .bool _ | .text _ | .number (.float _) =>
    simp [write, Datum.encodable, Datum.nesting, hl]
  | .number (.int n) =>
    by_cases hn : encodable n <;> simp [write, Datum.encodable, Datum.nesting, hl, hn]
  | .moment _ => simp [write, Datum.encodable]
  | .list [] =>
    simp [write, Datum.encodable, Datum.encodableList, Datum.nesting, Datum.nestingList, hl]
  | .record [] =>
    simp [write, Datum.encodable, Datum.encodableFields, Datum.nesting, Datum.nestingFields, hl]
  | .list (x :: xs) =>
    rw [exists_write_list_iff (by simp), Datum.encodable, Datum.nesting,
      ← Datum.forall_fits_iff (by simp)]
    refine and_congr_right fun hlt => forall₂_congr fun v hv => ?_
    have := List.sizeOf_lt_of_mem hv
    exact exists_write_iff hlt v
  | .record (f :: fs) =>
    rw [exists_write_record_iff (by simp), Datum.encodable, Datum.nesting, Datum.encodableFields_eq,
      Datum.nestingFields_eq, ← Datum.forall_fits_iff (by simp), List.forall_mem_map]
    refine and_congr_right fun hlt => forall₂_congr fun g hg => ?_
    have := List.sizeOf_lt_of_mem hg
    exact exists_write_iff hlt g.2
termination_by sizeOf v
decreasing_by
  · simp only [Datum.list.sizeOf_spec]
    omega
  · have : sizeOf g = 1 + sizeOf g.1 + sizeOf g.2 := by
      obtain ⟨k, v⟩ := g
      rfl
    simp only [Datum.record.sizeOf_spec]
    omega

theorem writes_of_nesting {v : Datum} {k : ℕ} (h : v.encodable) (hk : v.nesting ≤ k) : v.Writes k :=
  fun _ _ hlevel => (exists_write_iff (by omega) v).2 ⟨h, by omega⟩

/-! ## What documents hold -/

section

variable {negative : Bool} {n : ℕ} {m : Number} {cs rest : List Char} {v : Datum} {s : String}

theorem encodable_of_floating? {x : Binary64} (h : integerNumber?.floating? x = some m) :
    m.Encodable := by
  obtain ⟨-, h⟩ := Option.ite_none_right_eq_some.1 h
  obtain rfl := Option.some.inj h
  exact trivial

theorem encodable_of_integerNumber? (h : integerNumber? negative n = some m) : m.Encodable := by
  unfold integerNumber? at h
  split at h
  · split at h
    · next hn =>
      obtain rfl := Option.some.inj h
      have hfits : encodable (-(n : ℤ)) := by
        simp only [encodable, Bool.and_eq_true, decide_eq_true_iff]
        omega
      exact hfits
    · exact encodable_of_floating? h
  · split at h
    · next hn =>
      obtain rfl := Option.some.inj h
      have hfits : encodable (n : ℤ) := by
        simp only [encodable, Bool.and_eq_true, decide_eq_true_iff]
        omega
      exact hfits
    · exact encodable_of_floating? h

theorem encodable_of_readMagnitude? (h : readMagnitude? negative cs = some (m, rest)) :
    m.Encodable := by
  unfold readMagnitude? at h
  simp only [Option.bind_eq_bind, Option.bind_eq_some_iff] at h
  obtain ⟨whole, -, h⟩ := h
  split at h
  · cases h
  · obtain ⟨part, -, h⟩ := Option.bind_eq_some_iff.1 h
    obtain ⟨power, -, h⟩ := Option.bind_eq_some_iff.1 h
    split at h
    · obtain ⟨n, hn, h⟩ := Option.bind_eq_some_iff.1 h
      obtain ⟨rfl, -⟩ := Prod.mk.inj (Option.some.inj h)
      exact encodable_of_integerNumber? hn
    · obtain ⟨-, h⟩ := Option.ite_none_right_eq_some.1 h
      obtain ⟨rfl, -⟩ := Prod.mk.inj (Option.some.inj h)
      exact trivial

theorem encodable_of_readNumber? (h : readNumber? cs = some (m, rest)) : m.Encodable := by
  unfold readNumber? at h
  split at h <;> exact encodable_of_readMagnitude? h

theorem encodable_number (h : m.Encodable) : (Datum.number m).encodable := by
  cases m with
  | int n => exact h
  | float x => rfl

theorem encodable_putField {fs : List (String × Datum)} (name : String) (hfs : ∀ f ∈ fs, f.2.encodable)
    (hv : v.encodable) : ∀ f ∈ putField fs name v, f.2.encodable := by
  intro f hf
  unfold putField at hf
  split at hf
  · obtain ⟨g, hg, rfl⟩ := List.mem_map.1 hf
    split
    · exact hv
    · exact hfs g hg
  · rcases List.mem_append.1 hf with hf | hf
    · exact hfs f hf
    · obtain rfl := List.mem_singleton.1 hf
      exact hv

/-- What a reading with this much fuel gives can be written. -/
structure ReadsEncodable (fuel : ℕ) : Prop where
  value : ∀ {depth cs v rest}, readValue? fuel depth cs = some (v, rest) → v.encodable
  items : ∀ {depth xs cs v rest}, (∀ x ∈ xs, x.encodable) →
    readItems? fuel depth xs cs = some (v, rest) → v.encodable
  fields : ∀ {depth fs cs v rest}, (∀ f ∈ fs, f.2.encodable) →
    readFields? fuel depth fs cs = some (v, rest) → v.encodable

theorem readsEncodable (fuel : ℕ) : ReadsEncodable fuel := by
  induction fuel with
  | zero =>
    constructor
    · intro depth cs v rest h
      cases h
    · intro depth xs cs v rest _ h
      cases h
    · intro depth fs cs v rest _ h
      cases h
  | succ fuel ih =>
    constructor
    · intro depth cs v rest h
      unfold readValue? at h
      split at h
      · obtain ⟨rfl, -⟩ := Prod.mk.inj (Option.some.inj h)
        rfl
      · obtain ⟨rfl, -⟩ := Prod.mk.inj (Option.some.inj h)
        rfl
      · obtain ⟨rfl, -⟩ := Prod.mk.inj (Option.some.inj h)
        rfl
      · obtain ⟨text, -, h⟩ := Option.map_eq_some_iff.1 h
        obtain ⟨rfl, -⟩ := Prod.mk.inj h
        rfl
      · split at h
        · cases h
        · split at h
          · obtain ⟨rfl, -⟩ := Prod.mk.inj (Option.some.inj h)
            rfl
          · exact ih.items (by simp) h
      · split at h
        · cases h
        · split at h
          · obtain ⟨rfl, -⟩ := Prod.mk.inj (Option.some.inj h)
            rfl
          · exact ih.fields (by simp) h
      · obtain ⟨number, hnumber, h⟩ := Option.map_eq_some_iff.1 h
        obtain ⟨rfl, -⟩ := Prod.mk.inj h
        exact encodable_number (encodable_of_readNumber? hnumber)
    · intro depth xs cs v rest hxs h
      unfold readItems? at h
      obtain ⟨⟨x, rest₁⟩, hx, h⟩ := Option.bind_eq_some_iff.1 h
      have hxs : ∀ y ∈ x :: xs, y.encodable := List.forall_mem_cons.2 ⟨ih.value hx, hxs⟩
      dsimp only at h
      split at h
      · exact ih.items hxs h
      · obtain ⟨rfl, -⟩ := Prod.mk.inj (Option.some.inj h)
        rw [Datum.encodable, Datum.encodableList_iff]
        intro y hy
        exact hxs y (List.mem_reverse.1 hy)
      · cases h
    · intro depth fs cs v rest hfs h
      unfold readFields? at h
      split at h
      · obtain ⟨name, -, h⟩ := Option.bind_eq_some_iff.1 h
        dsimp only at h
        split at h
        · obtain ⟨⟨x, rest₁⟩, hx, h⟩ := Option.bind_eq_some_iff.1 h
          have hfs := encodable_putField name.1 hfs (ih.value hx)
          dsimp only at h
          split at h
          · exact ih.fields hfs h
          · obtain ⟨rfl, -⟩ := Prod.mk.inj (Option.some.inj h)
            rw [Datum.encodable, Datum.encodableFields_eq, Datum.encodableList_iff, List.forall_mem_map]
            exact hfs
          · cases h
        · cases h
      · cases h

theorem encodable_of_parse? (h : parse? s = some v) : v.encodable := by
  obtain ⟨⟨x, rest⟩, hx, h⟩ := Option.bind_eq_some_iff.1 h
  obtain ⟨-, h⟩ := Option.ite_none_right_eq_some.1 h
  obtain rfl := Option.some.inj h
  exact (readsEncodable _).value hx

theorem encodable_of_parseBytes? {bytes : ByteArray} (h : parseBytes? bytes = some v) : v.encodable := by
  obtain ⟨s, -, h⟩ := Option.bind_eq_some_iff.1 h
  exact encodable_of_parse? h

end

end Json

end TypeAtlas
