import Mathlib.Data.List.Basic
import TypeAtlas.Digest
import TypeAtlas.Graph.Hash

/-! # Content that can be digested

A container can be written if its parts can, one level below, and it is not nested too deeply. Texts,
truth values and floating-point numbers can always be written, and integers if they fit 64 bits. A digest
puts two containers around what it covers of a node, three more around what is read from the tags of the
node, and five around what is read from those of a field.
-/

namespace TypeAtlas.Json

/-! ## What can be written -/

variable {style : Style} {level : ℕ} {x : String} {xs : List Datum} {fs gs : List (String × Datum)}

theorem writeList_eq_ok {ys : List String} (h : writeList style level xs = .ok ys) :
    ∀ v ∈ xs, ∃ y, write style level v = .ok y := by
  induction xs generalizing ys with
  | nil => simp
  | cons v vs ih =>
    rw [writeList] at h
    cases hv : write style level v with
    | error e => simp [hv, bind, Except.bind] at h
    | ok y =>
      cases hvs : writeList style level vs with
      | error e => simp [hv, hvs, bind, Except.bind] at h
      | ok ys => exact List.forall_mem_cons.2 ⟨⟨y, hv⟩, ih hvs⟩

theorem writeFields_eq_ok {ys : List (String × String)} (h : writeFields style level fs = .ok ys) :
    ∀ f ∈ fs, ∃ y, write style level f.2 = .ok y := by
  induction fs generalizing ys with
  | nil => simp
  | cons f fs ih =>
    obtain ⟨k, v⟩ := f
    rw [writeFields] at h
    cases hv : write style level v with
    | error e => simp [hv, bind, Except.bind] at h
    | ok y =>
      cases hvs : writeFields style level fs with
      | error e => simp [hv, hvs, bind, Except.bind] at h
      | ok ys => exact List.forall_mem_cons.2 ⟨⟨y, hv⟩, ih hvs⟩

theorem exists_writeList (h : ∀ v ∈ xs, ∃ y, write style level v = .ok y) :
    ∃ ys, writeList style level xs = .ok ys := by
  induction xs with
  | nil => exact ⟨[], rfl⟩
  | cons v vs ih =>
    obtain ⟨⟨y, hy⟩, hvs⟩ := List.forall_mem_cons.1 h
    obtain ⟨ys, hys⟩ := ih hvs
    exact ⟨y :: ys, by rw [writeList, hy, hys]; rfl⟩

theorem exists_writeFields (h : ∀ f ∈ fs, ∃ y, write style level f.2 = .ok y) :
    ∃ ys, writeFields style level fs = .ok ys := by
  induction fs with
  | nil => exact ⟨[], rfl⟩
  | cons f fs ih =>
    obtain ⟨⟨y, hy⟩, hfs⟩ := List.forall_mem_cons.1 h
    obtain ⟨ys, hys⟩ := ih hfs
    exact ⟨(f.1, y) :: ys, by rw [writeFields, hy, hys]; rfl⟩

theorem write_list_eq_ok (h : write style level (.list xs) = .ok x) :
    ∀ v ∈ xs, ∃ y, write style (level + 1) v = .ok y := by
  cases xs with
  | nil => simp
  | cons v vs =>
    rw [write] at h
    split at h
    · cases h
    · cases hw : writeList style (level + 1) (v :: vs) with
      | error e => simp [hw, bind, Except.bind] at h
      | ok ys => exact writeList_eq_ok hw

theorem write_record_eq_ok (h : write style level (.record fs) = .ok x) :
    ∀ f ∈ fs, ∃ y, write style (level + 1) f.2 = .ok y := by
  cases fs with
  | nil => simp
  | cons f fs =>
    rw [write] at h
    split at h
    · cases h
    · cases hw : writeFields style (level + 1) (f :: fs) with
      | error e => simp [hw, bind, Except.bind] at h
      | ok ys => exact writeFields_eq_ok hw

theorem exists_write_list (hl : level < maxDepth)
    (h : ∀ v ∈ xs, ∃ y, write style (level + 1) v = .ok y) :
    ∃ x, write style level (.list xs) = .ok x := by
  cases xs with
  | nil => exact ⟨_, rfl⟩
  | cons v vs =>
    obtain ⟨ys, hys⟩ := exists_writeList h
    exact ⟨_, by rw [write, if_neg (by omega), hys]; rfl⟩

theorem exists_write_record (hl : level < maxDepth)
    (h : ∀ f ∈ fs, ∃ y, write style (level + 1) f.2 = .ok y) :
    ∃ x, write style level (.record fs) = .ok x := by
  cases fs with
  | nil => exact ⟨_, rfl⟩
  | cons f fs =>
    obtain ⟨ys, hys⟩ := exists_writeFields h
    exact ⟨_, by rw [write, if_neg (by omega), hys]; rfl⟩

theorem write_scalar {v : Datum} (hl : ∀ xs, v ≠ .list xs) (hr : ∀ fs, v ≠ .record fs) :
    write style level v = write style 0 v := by
  cases v with
  | number n => cases n <;> rfl
  | list xs => exact absurd rfl (hl xs)
  | record fs => exact absurd rfl (hr fs)
  | _ => rfl

end TypeAtlas.Json

namespace TypeAtlas.Digester

open Json

variable {d : Digester} {a : Algorithm} {kind x : String} {fs gs : List (String × Datum)}
  {cs : List String}

theorem exists_write_of_node (h : d.node a kind fs cs = .ok x) :
    ∀ f ∈ fs, ∃ y, write .compact 2 f.2 = .ok y := by
  unfold node value at h
  cases hc : compact (nodeValue kind fs cs) with
  | error e => simp [hc, Except.map] at h
  | ok text =>
    obtain ⟨y, hy⟩ := write_list_eq_ok hc (.record fs) (by simp)
    exact write_record_eq_ok hy

theorem exists_node_of_subset (h : d.node a kind fs cs = .ok x) (hsub : gs ⊆ fs) :
    ∃ y, d.node a kind gs cs = .ok y := by
  have hfields := exists_write_of_node h
  unfold node value at h ⊢
  cases hc : compact (nodeValue kind fs cs) with
  | error e => simp [hc, Except.map] at h
  | ok text =>
    have hparts := write_list_eq_ok hc
    have hrecord : ∃ z, write .compact 1 (.record gs) = .ok z :=
      exists_write_record (by decide) fun f hf => hfields f (hsub hf)
    have hlist : ∃ y, compact (nodeValue kind gs cs) = .ok y := by
      refine exists_write_list (by decide) ?_
      simp only [List.mem_cons, List.not_mem_nil, or_false, forall_eq_or_imp, forall_eq]
      exact ⟨hparts _ (by simp), hrecord, hparts _ (by simp)⟩
    obtain ⟨y, hy⟩ := hlist
    exact ⟨_, congrArg (Except.map (d.text a)) hy⟩

end TypeAtlas.Digester

namespace TypeAtlas

/-! ## Encodable content -/

/-- An integer fits 64 bits, signed or unsigned. -/
def Number.Encodable : Number → Prop
  | .int n => Json.encodable n
  | .float _ => True

namespace Datum

variable {k l : ℕ} {v : Datum} {xs : List Datum} {fs : List (String × Datum)}

/-- A value can be written wherever containers may be nested `k` levels deeper. -/
def Writes (k : ℕ) (v : Datum) : Prop :=
  ∀ style level, level + k ≤ Json.maxDepth → ∃ x, Json.write style level v = .ok x

theorem Writes.mono (h : v.Writes k) (hkl : k ≤ l) : v.Writes l :=
  fun style level hl => h style level (by omega)

theorem writes_null : null.Writes k := fun _ _ _ => ⟨_, by rw [Json.write]⟩

theorem writes_bool (b : Bool) : (bool b).Writes k := fun _ _ _ => ⟨_, by rw [Json.write]⟩

theorem writes_text (s : String) : (text s).Writes k := fun _ _ _ => ⟨_, by rw [Json.write]⟩

theorem writes_number {n : Number} (h : n.Encodable) : (number n).Writes k := by
  intro style level _
  cases n with
  | int n =>
    have hn : Json.encodable n := h
    exact ⟨_, by rw [Json.write, if_pos hn]⟩
  | float x => exact ⟨_, by rw [Json.write]⟩

theorem writes_list (h : ∀ v ∈ xs, v.Writes k) : (list xs).Writes (k + 1) := by
  intro style level hl
  exact Json.exists_write_list (by omega) fun v hv => h v hv style (level + 1) (by omega)

theorem writes_record (h : ∀ f ∈ fs, f.2.Writes k) : (record fs).Writes (k + 1) := by
  intro style level hl
  exact Json.exists_write_record (by omega) fun f hf => h f hf style (level + 1) (by omega)

theorem writes_texts (ss : List String) : (texts ss).Writes (k + 1) := by
  refine writes_list fun v hv => ?_
  obtain ⟨s, -, rfl⟩ := List.mem_map.1 hv
  exact writes_text s

end Datum

/-! ## Content of nodes -/

def Scalar.Encodable (x : Scalar) : Prop := ∀ n, x = .number n → n.Encodable

theorem Scalar.Encodable.writes {x : Scalar} {k : ℕ} (h : x.Encodable) : x.toDatum.Writes k := by
  cases x with
  | bool b => exact Datum.writes_bool b
  | number n => exact Datum.writes_number (h n rfl)
  | text s => exact Datum.writes_text s

def EnumValue.Encodable (x : EnumValue) : Prop := ∀ n, x = .number n → n.Encodable

theorem EnumValue.Encodable.writes {x : EnumValue} {k : ℕ} (h : x.Encodable) :
    x.toDatum.Writes k := by
  cases x with
  | number n => exact Datum.writes_number (h n rfl)
  | text s => exact Datum.writes_text s

/-- What is read from the payload of a tag can be written wherever containers may be nested `k` levels
deeper. -/
def Tag.Encodable (k : ℕ) (t : Tag) : Prop :=
  ∀ fields, t.parsed = some fields → ∀ f ∈ fields, f.2.Writes k

theorem Tag.Encodable.mono {t : Tag} {k l : ℕ} (h : t.Encodable k) (hkl : k ≤ l) : t.Encodable l :=
  fun fields hfields f hf => (h fields hfields f hf).mono hkl

theorem Tag.Encodable.writes {t : Tag} {k : ℕ} (h : t.Encodable k) : t.payload.Writes (k + 2) := by
  have hparsed : (Datum.optional .record t.parsed).Writes (k + 1) := by
    cases hp : t.parsed with
    | none => exact Datum.writes_null
    | some fields => exact Datum.writes_record (h fields hp)
  refine Datum.writes_list ?_
  simp only [List.forall_mem_cons, List.not_mem_nil, false_implies, implies_true, and_true]
  exact ⟨Datum.writes_text _, Datum.writes_text _, hparsed⟩

theorem writes_sharedPayload {k l : ℕ} {payload : List (String × Datum)} {tags : List Tag} (b : Bool)
    (hk : k + 3 ≤ l) (h : ∀ f ∈ payload, f.2.Writes l) (htags : ∀ t ∈ tags, t.Encodable k) :
    ∀ f ∈ sharedPayload payload tags b, f.2.Writes l := by
  intro f hf
  rw [sharedPayload, List.mem_append, List.mem_append] at hf
  rcases hf with (hf | hf) | hf
  · exact h f hf
  · split at hf
    · cases hf
    · obtain rfl := List.mem_singleton.1 hf
      refine (Datum.writes_list fun v hv => ?_ : Datum.Writes (k + 3) _).mono hk
      obtain ⟨t, ht, rfl⟩ := List.mem_map.1 hv
      exact (htags t ht).writes
  · split at hf
    · obtain rfl := List.mem_singleton.1 hf
      exact Datum.writes_bool true
    · cases hf

theorem writes_fieldPayload (name : String) (optional readonly : Bool) {tags : List Tag}
    (htags : ∀ t ∈ tags, t.Encodable 247) : (fieldPayload name optional readonly tags).Writes 251 := by
  refine Datum.writes_record (writes_sharedPayload false (Nat.le_refl 250) ?_ htags)
  simp only [List.forall_mem_cons, List.not_mem_nil, false_implies, implies_true, and_true]
  exact ⟨Datum.writes_text _, Datum.writes_bool _, Datum.writes_bool _⟩

/-- A node whose content is not nested too deep has a digest. -/
theorem Digester.exists_node {payload : List (String × Datum)} (d : Digester) (a : Algorithm)
    (kind : String) (cs : List String) (h : ∀ f ∈ payload, f.2.Writes 252) :
    ∃ x, d.node a kind payload cs = .ok x := by
  have hvalue : (nodeValue kind payload cs).Writes 254 := by
    refine Datum.writes_list ?_
    simp only [List.forall_mem_cons, List.not_mem_nil, false_implies, implies_true, and_true]
    exact ⟨Datum.writes_text _, Datum.writes_record h, Datum.writes_texts cs⟩
  obtain ⟨x, hx⟩ := hvalue .compact 0 (by decide)
  exact ⟨_, congrArg (Except.map (d.text a)) hx⟩

end TypeAtlas
