import TypeAtlas.Proofs.Normal.Discriminated

/-! # Erasing presentation

Nodes without positions and symbols, and with the payloads of tags in the order of their fields: what
a digest covers of a node.
-/

namespace TypeAtlas

namespace Datum

mutual

/-- Whether all numbers in a value are finite. -/
def isFinite : Datum → Bool
  | .number n => n.isFinite
  | .list items => isFiniteList items
  | .record fields => isFiniteFields fields
  | _ => true

def isFiniteList : List Datum → Bool
  | [] => true
  | x :: xs => isFinite x && isFiniteList xs

def isFiniteFields : List (String × Datum) → Bool
  | [] => true
  | (_, x) :: xs => isFinite x && isFiniteFields xs

end

mutual

/-- The value with the fields of records in order. -/
def ordered : Datum → Datum
  | .list items => .list (orderedList items)
  | .record fields => .record (Json.sortFields (orderedFields fields))
  | d => d

def orderedList : List Datum → List Datum
  | [] => []
  | x :: xs => ordered x :: orderedList xs

def orderedFields : List (String × Datum) → List (String × Datum)
  | [] => []
  | (k, x) :: xs => (k, ordered x) :: orderedFields xs

end

mutual

/-- A digest covers all of a finite value but the order of fields. -/
theorem canonical_eq_ordered : (v : Datum) → v.isFinite → v.canonical = v.ordered
  | .null, _ | .bool _, _ | .text _, _ | .moment _, _ => rfl
  | .number _, h => if_pos h
  | .list items, h => congrArg Datum.list (canonicalList_eq_ordered items h)
  | .record fields, h =>
    congrArg (fun fs => Datum.record (Json.sortFields fs)) (canonicalFields_eq_ordered fields h)

theorem canonicalList_eq_ordered :
    (xs : List Datum) → isFiniteList xs → canonicalList xs = orderedList xs
  | [], _ => rfl
  | x :: xs, h => by
    have h := Bool.and_eq_true_iff.1 h
    rw [canonicalList, orderedList, canonical_eq_ordered x h.1, canonicalList_eq_ordered xs h.2]

theorem canonicalFields_eq_ordered :
    (fs : List (String × Datum)) → isFiniteFields fs → canonicalFields fs = orderedFields fs
  | [], _ => rfl
  | (k, x) :: fs, h => by
    have h := Bool.and_eq_true_iff.1 h
    rw [canonicalFields, orderedFields, canonical_eq_ordered x h.1,
      canonicalFields_eq_ordered fs h.2]

end

end Datum

namespace Tag

/-- Whether all numbers in the payload of a tag are finite. -/
def isFinite (t : Tag) : Bool := (Datum.optional Datum.record t.parsed).isFinite

/-- The tag with the fields of its payload in order. -/
def ordered (t : Tag) : Tag :=
  { t with parsed := t.parsed.map fun fs => Json.sortFields (Datum.orderedFields fs) }

theorem ordered_eq_of_payload {s t : Tag} (hs : s.isFinite) (ht : t.isFinite)
    (h : s.payload.canonical = t.payload.canonical) : s.ordered = t.ordered := by
  simp only [payload, Datum.canonical_list, List.map_cons, List.map_nil, Datum.canonical_text,
    Datum.list.injEq, List.cons.injEq, Datum.text.injEq, and_true] at h
  obtain ⟨hname, hraw, hparsed⟩ := h
  rw [Datum.canonical_eq_ordered _ hs, Datum.canonical_eq_ordered _ ht] at hparsed
  have hfields : s.parsed.map (fun fs => Json.sortFields (Datum.orderedFields fs)) =
      t.parsed.map fun fs => Json.sortFields (Datum.orderedFields fs) := by
    cases hs : s.parsed <;> cases ht : t.parsed <;>
      simp_all [Datum.optional, Datum.ordered]
  rw [ordered, ordered, hname, hraw, hfields]

end Tag

theorem TagsAlike.ordered {ss ts : List Tag} (h : TagsAlike ss ts) (hs : ss.all Tag.isFinite)
    (ht : ts.all Tag.isFinite) : ss.map Tag.ordered = ts.map Tag.ordered := by
  induction ss generalizing ts with
  | nil =>
    obtain rfl : ts = [] := List.map_eq_nil_iff.1 h.symm
    rfl
  | cons s ss ih =>
    cases ts with
    | nil => cases h
    | cons t ts =>
      rw [List.all_cons, Bool.and_eq_true] at hs ht
      obtain ⟨hst, h⟩ := List.cons.inj h
      rw [List.map_cons, List.map_cons, Tag.ordered_eq_of_payload hs.1 ht.1 hst, ih h hs.2 ht.2]

/-- Whether the literals and members of a shape, and the payloads of its tags, are finite. -/
def Shape.isFinite : Shape → Bool
  | .literal _ x => x.isFinite
  | .enum ms => ms.all fun m => m.value.toDatum.isFinite
  | .object fs => fs.all fun f => f.tags.all Tag.isFinite
  | _ => true

def Field.erased (f : Field) : Field := { f with tags := f.tags.map Tag.ordered, location := none }

def Shape.erased : Shape → Shape
  | .object fs => .object (fs.map Field.erased)
  | .reference target _ => .reference target ""
  | .recursiveRef target _ => .recursiveRef target ""
  | shape => shape

namespace Node

def isFinite (n : Node) : Bool := n.shape.isFinite && n.tags.all Tag.isFinite

def erased (n : Node) : Node :=
  { n with shape := n.shape.erased, tags := n.tags.map Tag.ordered, location := none }

end Node

/-- Whether all numbers in an arena are finite. -/
def Arena.Finite (A : Arena) : Prop := ∀ (id : NodeId) (n : Node), A[id]? = some n → n.isFinite

end TypeAtlas
