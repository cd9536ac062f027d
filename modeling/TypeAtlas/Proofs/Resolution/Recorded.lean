import TypeAtlas.Declaration.Memory
import TypeAtlas.Proofs.Resolution.Sourced
import TypeAtlas.Proofs.Run

/-! # Declarations from records

What is read from records is never too deep by itself, so declarations that are given as records can
be resolved however they refer to each other. Whether they are formed as they should be can be
computed.
-/

namespace TypeAtlas

variable {α β : Type}

namespace Description

/-- A reading does not fail for its depth. -/
abbrev Flat (m : Attempt α) : Prop := m ≠ .error .nestingTooDeep

theorem flat_bind {m : Attempt α} {f : α → Attempt β} (hm : Flat m) (hf : ∀ x, Flat (f x)) :
    Flat (m >>= f) := by
  cases m with
  | error e => exact fun h => hm (congrArg Except.error (Except.error.inj h))
  | ok x => exact hf x

theorem flat_map {m : Attempt α} {f : α → β} (hm : Flat m) : Flat (m.map f) := by
  cases m with
  | error e => exact fun h => hm (congrArg Except.error (Except.error.inj h))
  | ok x => nofun

theorem flat_sequence (p : Option Part) : Flat (sequence p) := by
  unfold sequence
  split <;> nofun

theorem flat_readPosition (cells : Array Cell) (c : Cell) : Flat (readPosition cells c) := by
  unfold readPosition
  split
  · nofun
  · split
    · nofun
    · split
      · nofun
      · dsimp only
        split <;> nofun

theorem flat_showable (d : Datum) : Flat (showable d) := by
  unfold showable
  split <;> nofun

theorem flat_display (d : Datum) : Flat (display d) := flat_map (flat_showable d)

theorem flat_readComment (d : Datum) : Flat (readComment d) := by
  unfold readComment
  split
  · nofun
  · split <;> nofun

theorem flat_readField (cells : Array Cell) (p : Part) : Flat (readField cells p) := by
  unfold readField
  split
  · nofun
  · split
    · nofun
    · exact flat_bind (flat_display _) fun _ => flat_bind (flat_readComment _) fun _ =>
        flat_bind (flat_readPosition _ _) fun _ => nofun

theorem flat_readMember (cells : Array Cell) (p : Part) : Flat (readMember cells p) := by
  unfold readMember
  split
  · nofun
  · dsimp only
    split
    · exact flat_map (flat_display _)
    · split
      · nofun
      · nofun
      · exact flat_map (flat_display _)

theorem flat_readLiteral (c : Cell) : Flat (readLiteral c) := by
  unfold readLiteral
  dsimp only
  split
  · exact flat_map (flat_display _)
  · split
    · nofun
    · nofun
    · nofun
    · nofun
    · exact flat_map (flat_showable _)

theorem flat_detail (c : Cell) : Flat (detail c) := by
  unfold detail
  split
  · nofun
  · exact flat_map (flat_display _)

theorem flat_readShape (cells : Array Cell) (c : Cell) : Flat (readShape cells c) := by
  unfold readShape
  dsimp only
  split
  · unfold readPrimitive
    split
    · nofun
    · nofun
    · nofun
    · exact flat_map (flat_display _)
  · exact flat_readLiteral c
  · nofun
  · split <;> nofun
  · exact flat_map (flat_map (flat_sequence _))
  · exact flat_bind (flat_sequence _) fun _ => nofun
  · exact flat_map (flat_map (flat_sequence _))
  · exact flat_map (flat_map (flat_sequence _))
  · exact flat_bind (flat_sequence _) fun _ => nofun
  · refine flat_bind (flat_display _) fun _ => ?_
    split <;> nofun
  · split
    · exact flat_bind (flat_display _) fun _ => flat_bind (flat_detail c) fun _ => nofun
    · rw [pure_bind]
      exact flat_bind (flat_detail c) fun _ => nofun
  · split
    · exact flat_map (flat_detail _)
    · exact flat_map (flat_showable _)
  · exact flat_map (flat_showable _)

/-- The shape has neither a value nor parts of its own. -/
def Bare (shape : DescriptionShape) : Prop :=
  (∀ k x, shape ≠ .literal k x) ∧ (∀ fs, shape ≠ .object fs) ∧ ∀ ms, shape ≠ .enum ms

theorem readShape_cases {cells : Array Cell} {c : Cell} {shape : DescriptionShape}
    (h : readShape cells c = .ok shape) :
    readLiteral c = .ok shape ∨ (∃ ps : List Part, shape = .object (ps.map (readField cells))) ∨
      (∃ ps : List Part, shape = .enum (ps.map (readMember cells))) ∨ Bare shape := by
  have hbare {shape' : DescriptionShape} (h : shape' = shape) (hb : Bare shape') :
      readLiteral c = .ok shape ∨ (∃ ps : List Part, shape = .object (ps.map (readField cells))) ∨
        (∃ ps : List Part, shape = .enum (ps.map (readMember cells))) ∨ Bare shape :=
    .inr (.inr (.inr (h ▸ hb)))
  unfold readShape at h
  dsimp only at h
  split at h
  · unfold readPrimitive at h
    split at h
    · refine hbare (Except.ok.inj h) ?_
      split <;> simp [Bare]
    · cases h
    · cases h
    · obtain ⟨name, -, h⟩ := map_eq_ok.1 h
      exact hbare h (by simp [Bare])
  · exact .inl h
  · exact hbare (Except.ok.inj h) (by simp [Bare])
  · split at h
    · cases h
    · exact hbare (Except.ok.inj h) (by simp [Bare])
  · obtain ⟨es, -, h⟩ := map_eq_ok.1 h
    exact hbare h (by simp [Bare])
  · obtain ⟨ps, -, h⟩ := bind_eq_ok.1 h
    exact .inr (.inl ⟨ps, (Except.ok.inj h).symm⟩)
  · obtain ⟨ms, -, h⟩ := map_eq_ok.1 h
    exact hbare h (by simp [Bare])
  · obtain ⟨ms, -, h⟩ := map_eq_ok.1 h
    exact hbare h (by simp [Bare])
  · obtain ⟨ps, -, h⟩ := bind_eq_ok.1 h
    exact .inr (.inr (.inl ⟨ps, (Except.ok.inj h).symm⟩))
  · obtain ⟨name, -, h⟩ := bind_eq_ok.1 h
    split at h
    · exact hbare (Except.ok.inj h) (by simp [Bare])
    · exact hbare (Except.ok.inj h) (by simp [Bare])
  · split at h
    · obtain ⟨construct, -, h⟩ := bind_eq_ok.1 h
      obtain ⟨text, -, h⟩ := bind_eq_ok.1 h
      exact hbare (Except.ok.inj h) (by simp [Bare])
    · rw [pure_bind] at h
      obtain ⟨text, -, h⟩ := bind_eq_ok.1 h
      exact hbare (Except.ok.inj h) (by simp [Bare])
  · split at h
    · obtain ⟨text, -, h⟩ := map_eq_ok.1 h
      exact hbare h (by simp [Bare])
    · obtain ⟨kind, -, h⟩ := map_eq_ok.1 h
      exact hbare h (by simp [Bare])
  · obtain ⟨kind, -, h⟩ := map_eq_ok.1 h
    exact hbare h (by simp [Bare])

theorem isFinite_fold {n : Number} (h : n.isFinite) : n.fold.isFinite := by
  cases n with
  | int n => rfl
  | float x =>
    rw [Number.fold]
    split
    · rfl
    · exact h

theorem readLiteral_cases {c : Cell} {shape : DescriptionShape} (h : readLiteral c = .ok shape) :
    Bare shape ∨ ∃ k x, shape = .literal k x ∧ ∀ n, x = .number n → n.isFinite := by
  unfold readLiteral at h
  dsimp only at h
  split at h
  · obtain ⟨text, -, rfl⟩ := map_eq_ok.1 h
    exact .inr ⟨_, _, rfl, by simp⟩
  · split at h
    · obtain rfl := Except.ok.inj h
      exact .inr ⟨_, _, rfl, by simp⟩
    · obtain rfl := Except.ok.inj h
      split
      · next hn => exact .inr ⟨_, _, rfl, fun m hm => by cases hm; exact isFinite_fold hn⟩
      · exact .inl (by simp [Bare])
    · obtain rfl := Except.ok.inj h
      exact .inr ⟨_, _, rfl, by simp⟩
    · obtain rfl := Except.ok.inj h
      exact .inl (by simp [Bare])
    · obtain ⟨d, -, rfl⟩ := map_eq_ok.1 h
      exact .inl (by simp [Bare])

theorem flat_parts {cells : Array Cell} {c : Cell} {shape : DescriptionShape}
    (h : readShape cells c = .ok shape) :
    (∀ fs, shape = .object fs → ∀ f ∈ fs, Flat f) ∧ ∀ ms, shape = .enum ms → ∀ m ∈ ms, Flat m := by
  rcases readShape_cases h with h | ⟨ps, rfl⟩ | ⟨ps, rfl⟩ | ⟨-, hobject, henum⟩
  · rcases readLiteral_cases h with ⟨-, hobject, henum⟩ | ⟨k, x, rfl, -⟩
    · exact ⟨fun fs hfs => absurd hfs (hobject fs), fun ms hms => absurd hms (henum ms)⟩
    · exact ⟨by simp, by simp⟩
  · refine ⟨fun fs hfs f hf => ?_, by simp⟩
    cases hfs
    obtain ⟨p, -, rfl⟩ := List.mem_map.1 hf
    exact flat_readField cells p
  · refine ⟨by simp, fun ms hms m hm => ?_⟩
    cases hms
    obtain ⟨p, -, rfl⟩ := List.mem_map.1 hm
    exact flat_readMember cells p
  · exact ⟨fun fs hfs => absurd hfs (hobject fs), fun ms hms => absurd hms (henum ms)⟩

theorem finite_of_readMember {cells : Array Cell} {p : Part} {m : EnumMember} {n : Number}
    (h : readMember cells p = .ok (.constant m)) (hn : m.value = .number n) : n.isFinite := by
  unfold readMember at h
  split at h
  · cases h
  · dsimp only at h
    split at h
    · obtain ⟨name, -, h⟩ := map_eq_ok.1 h
      cases h
    · next value _ =>
      split at h
      · cases h
      · cases h
      · next folded name hfolded _ =>
        obtain ⟨shown, -, h⟩ := map_eq_ok.1 h
        obtain rfl := MemberDescription.constant.inj h
        obtain rfl : folded = .number n := hn
        cases value with
        | text s => cases hfolded
        | number m =>
          dsimp only at hfolded
          split at hfolded
          · next hm =>
            obtain rfl := EnumValue.number.inj (Except.ok.inj hfolded)
            exact isFinite_fold hm
          · cases hfolded

/-- What is read has finite values. -/
theorem finite_of_read {cells : Array Cell} {c : Cell} {d : Description} (h : read cells c = .ok d) :
    (∀ k n, d.shape = .literal k (.number n) → n.isFinite) ∧
      ∀ ms, d.shape = .enum ms → ∀ name n, .ok (.constant ⟨name, .number n⟩) ∈ ms → n.isFinite := by
  obtain ⟨position, -, h⟩ := bind_eq_ok.1 h
  obtain ⟨shape, hshape, h⟩ := bind_eq_ok.1 h
  obtain rfl := Except.ok.inj h
  have hbare {shape : DescriptionShape} (hb : Bare shape) :
      (∀ k n, shape = .literal k (.number n) → n.isFinite) ∧
        ∀ ms, shape = .enum ms → ∀ name n, .ok (.constant ⟨name, .number n⟩) ∈ ms → n.isFinite :=
    ⟨fun k n hs => absurd hs (hb.1 k _), fun ms hs => absurd hs (hb.2.2 ms)⟩
  rcases readShape_cases hshape with hliteral | ⟨ps, rfl⟩ | ⟨ps, rfl⟩ | hb
  · rcases readLiteral_cases hliteral with hb | ⟨k, x, rfl, hfinite⟩
    · exact hbare hb
    · refine ⟨fun k' n hs => ?_, by simp⟩
      exact hfinite n (DescriptionShape.literal.inj hs).2
  · exact ⟨by simp, by simp⟩
  · refine ⟨by simp, fun ms hs name n hmem => ?_⟩
    cases hs
    obtain ⟨p, -, hp⟩ := List.mem_map.1 hmem
    exact finite_of_readMember hp rfl
  · exact hbare hb

/-- Whatever is in the arena of placed records is read from a cell. -/
theorem exists_read_of_get {s : Placing} {i : DescriptionId} {d : Description}
    (h : Descriptions.get (readAll s) i = .ok d) : ∃ c ∈ s.cells, read s.cells c = .ok d := by
  unfold Descriptions.get at h
  cases hi : (readAll s)[i]? with
  | none =>
    rw [hi] at h
    cases h
  | some m =>
    rw [hi] at h
    obtain rfl : m = .ok d := h
    have hmem : .ok d ∈ readAll s := Array.mem_of_getElem? hi
    rcases Array.mem_or_eq_of_mem_setIfInBounds hmem with hm | he
    · obtain ⟨c, hmem, hc⟩ := Array.mem_map.1 hm
      exact ⟨c, hmem, hc⟩
    · cases he

theorem legible_readAll (s : Placing) : Resolution.Legible (readAll s) := by
  have hread (c : Cell) : Flat (read s.cells c) ∧ ∀ d, read s.cells c = .ok d →
      (∀ fs, d.shape = .object fs → ∀ f ∈ fs, Flat f) ∧
        ∀ ms, d.shape = .enum ms → ∀ m ∈ ms, Flat m := by
    unfold read
    refine ⟨flat_bind (flat_readPosition _ _) fun _ => flat_bind (flat_readShape _ _) fun _ => nofun,
      fun d hd => ?_⟩
    obtain ⟨position, -, hd⟩ := bind_eq_ok.1 hd
    obtain ⟨shape, hshape, hd⟩ := bind_eq_ok.1 hd
    obtain rfl := Except.ok.inj hd
    exact flat_parts hshape
  intro m hm
  rcases Array.mem_or_eq_of_mem_setIfInBounds hm with hm | rfl
  · obtain ⟨c, -, rfl⟩ := Array.mem_map.1 hm
    exact hread c
  · exact ⟨nofun, nofun⟩

end Description

/-! ## Tables -/

/-- No part of the shape is a fault. -/
def DescriptionShape.faultless : DescriptionShape → Bool
  | .object fs => fs.all fun f => f.toBool
  | .enum ms => ms.all fun m => m.toBool
  | _ => true

/-- The listed descriptions are formed as they should be, and refer to others in the list. -/
def Descriptions.sound (types : Descriptions) (ids : List DescriptionId) : Bool :=
  ids.all fun i => match types.get i with
    | .ok d => d.shape.faultless && d.shape.children.all fun j => ids.contains j
    | .error _ => false

/-- The literals and the members of enums that a source describes are finite. -/
structure DeclarationSource.FiniteValues (source : DeclarationSource) : Prop where
  literal : ∀ d, Describes source d → ∀ k n, d.shape = .literal k (.number n) → n.isFinite
  enum : ∀ d, Describes source d → ∀ ms, d.shape = .enum ms → ∀ name n,
    .ok (.constant ⟨name, .number n⟩) ∈ ms → n.isFinite

namespace DeclarationTable

open Resolution

/-- The size of the largest arena of a table. -/
def size (t : DeclarationTable) : ℕ := (t.map fun d => d.types.size).foldl max 0

theorem finite_source {t : DeclarationTable} (h : ∀ d ∈ t, Legible d.types) :
    Finite t.source (t.map Declaration.key) t.size := by
  have hmem {k : DeclarationKey} {d : Declaration} (hd : t.source.lookup k = .ok (some d)) : d ∈ t :=
    List.mem_of_find?_eq_some (Except.ok.inj hd)
  refine ⟨nofun, fun k d hd => List.mem_map_of_mem (hmem hd), fun k d hd => ?_, fun k d hd =>
    h d (hmem hd)⟩
  exact le_foldl_max (.inl (List.mem_map_of_mem (f := fun d : Declaration => d.types.size) (hmem hd)))

theorem bound_lt_depth (t : DeclarationTable) (keys : List DeclarationKey) :
    bound t.source keys t.size < t.source.depth := Nat.lt_succ_self t.size

theorem legible_ofRecords {ds : List RecordDeclaration} {d : Declaration} (h : d ∈ ofRecords ds) :
    Legible d.types := by
  obtain ⟨p, -, rfl⟩ := List.mem_map.1 (List.mem_reverse.1 h)
  exact Description.legible_readAll _

/-! ### Finite values -/

theorem exists_mem_of_occurs {t : DeclarationTable} {types : Descriptions} {i : DescriptionId}
    (h : Occurs t.source types i) : ∃ d ∈ t, d.types = types := by
  induction h with
  | root hd => exact ⟨_, List.mem_of_find?_eq_some (Except.ok.inj hd), rfl⟩
  | child _ _ _ ih => exact ih

theorem finiteValues_ofRecords (ds : List RecordDeclaration) : (ofRecords ds).source.FiniteValues := by
  have hread {d : Description} (h : Describes (ofRecords ds).source d) :
      ∃ cells c, Description.read cells c = .ok d := by
    obtain ⟨types, i, ho, hd⟩ := h
    obtain ⟨e, he, rfl⟩ := exists_mem_of_occurs ho
    obtain ⟨p, -, rfl⟩ := List.mem_map.1 (List.mem_reverse.1 he)
    obtain ⟨c, -, hc⟩ := Description.exists_read_of_get hd
    exact ⟨_, c, hc⟩
  refine ⟨fun d hd => ?_, fun d hd => ?_⟩
  · obtain ⟨cells, c, hc⟩ := hread hd
    exact (Description.finite_of_read hc).1
  · obtain ⟨cells, c, hc⟩ := hread hd
    exact (Description.finite_of_read hc).2

/-! ### Sound tables -/

section Sound

variable {t : DeclarationTable} {types : Descriptions} {i : DescriptionId} {ids : List DescriptionId}

theorem exists_sound_of_occurs (h : ∀ d ∈ t, d.type ∈ ids ∧ d.types.sound ids)
    (ho : Occurs t.source types i) : i ∈ ids ∧ ∃ d ∈ t, d.types = types := by
  induction ho with
  | root hd =>
    have hmem := List.mem_of_find?_eq_some (Except.ok.inj hd)
    exact ⟨(h _ hmem).1, _, hmem, rfl⟩
  | child _ hd hj ih =>
    obtain ⟨hi, d, hmem, rfl⟩ := ih
    have hone := List.all_eq_true.1 (h d hmem).2 _ hi
    simp only [hd, Bool.and_eq_true, List.all_eq_true, List.contains_iff_mem] at hone
    exact ⟨hone.2 _ hj, d, hmem, rfl⟩

/-- Sound descriptions are all formed as they should be. -/
theorem wellDescribed_of_sound (h : ∀ d ∈ t, d.type ∈ ids ∧ d.types.sound ids) :
    WellDescribed t.source := by
  have hone {types i} (ho : Occurs t.source types i) :
      ∃ d, types.get i = .ok d ∧ d.shape.faultless := by
    obtain ⟨hi, d, hmem, rfl⟩ := exists_sound_of_occurs h ho
    have hone := List.all_eq_true.1 (h d hmem).2 _ hi
    cases hd : d.types.get i with
    | error e => simp [hd] at hone
    | ok d =>
      rw [hd, Bool.and_eq_true] at hone
      exact ⟨d, rfl, hone.1⟩
  have hfaultless {d} (hd : Describes t.source d) : d.shape.faultless := by
    obtain ⟨types, i, ho, hd⟩ := hd
    obtain ⟨d', hd', hf⟩ := hone ho
    obtain rfl := Except.ok.inj (hd.symm.trans hd')
    exact hf
  refine ⟨nofun, fun types i e ho he => ?_, fun d hd fs hs e he => ?_, fun d hd ms hs e he => ?_⟩
  · obtain ⟨d, hd, -⟩ := hone ho
    cases hd.symm.trans he
  · have hf := hfaultless hd
    rw [hs] at hf
    cases List.all_eq_true.1 hf _ he
  · have hf := hfaultless hd
    rw [hs] at hf
    cases List.all_eq_true.1 hf _ he

end Sound

end DeclarationTable

end TypeAtlas
