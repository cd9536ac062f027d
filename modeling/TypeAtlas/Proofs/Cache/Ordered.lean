import TypeAtlas.Proofs.Cache.Entry

/-! # Entries in order

What a document gives back of an entry without infinite numbers is the entry itself, with the fields of
its free records in order: the payloads of tags and the reports.
-/

namespace TypeAtlas

namespace Datum

/-- A value is found in another one, at any depth. -/
inductive Part : Datum → Datum → Prop
  | refl (v : Datum) : Part v v
  | item {v x : Datum} {xs : List Datum} (hx : x ∈ xs) (h : Part v x) : Part v (.list xs)
  | field {v : Datum} {f : String × Datum} {fs : List (String × Datum)} (hf : f ∈ fs)
    (h : Part v f.2) : Part v (.record fs)

variable {v w : Datum} {xs : List Datum} {fs : List (String × Datum)}

theorem isFiniteList_iff : isFiniteList xs ↔ ∀ x ∈ xs, x.isFinite := by
  induction xs with
  | nil => simp [isFiniteList]
  | cons x xs ih => simp [isFiniteList, ih]

theorem isFiniteFields_iff : isFiniteFields fs ↔ ∀ f ∈ fs, f.2.isFinite := by
  induction fs with
  | nil => simp [isFiniteFields]
  | cons f fs ih => simp [isFiniteFields, ih]

namespace Part

theorem isFinite (h : Part v w) (hw : w.isFinite) : v.isFinite := by
  induction h with
  | refl => exact hw
  | item hx _ ih => exact ih (isFiniteList_iff.1 hw _ hx)
  | field hf _ ih => exact ih (isFiniteFields_iff.1 hw _ hf)

theorem distinct (h : Part v w) (hw : w.Distinct) : v.Distinct := by
  induction h with
  | refl => exact hw
  | item hx _ ih =>
    cases hw with
    | list hxs => exact ih (hxs _ hx)
  | field hf _ ih =>
    cases hw with
    | record _ hfs => exact ih (hfs _ hf)

theorem of_mem_map {α : Type} {f : α → Datum} {as : List α} {a : α} (ha : a ∈ as)
    (h : Part v (f a)) : Part v (.list (as.map f)) :=
  .item (List.mem_map_of_mem ha) h

end Part

end Datum

open Datum (Part)

/-! ## Parts of entries -/

theorem Tag.part {t : Tag} {fs : List (String × Datum)} (h : fs ∈ t.parsed) :
    Part (.record fs) t.toDatum := by
  refine .field (f := ("parsed", Datum.optional .record t.parsed)) (by simp [toFields]) ?_
  rw [Option.mem_def.1 h]
  exact .refl _

theorem Field.part {f : Field} {t : Tag} {fs : List (String × Datum)} (ht : t ∈ f.tags)
    (h : fs ∈ t.parsed) : Part (.record fs) f.toDatum :=
  .field (f := ("tags", .list (f.tags.map Tag.toDatum))) (by simp) (.of_mem_map ht (Tag.part h))

theorem EnumMember.part (m : EnumMember) : Part m.value.toDatum m.toDatum :=
  .field (f := ("value", m.value.toDatum)) (by simp) (.refl _)

theorem Discriminant.part {δ : Discriminant} {x : Scalar} (h : x ∈ δ.values) :
    Part x.toDatum δ.toDatum :=
  .field (f := ("values", .list (δ.values.map Scalar.toDatum))) (by simp) (.of_mem_map h (.refl _))

namespace Node

variable {n : Node} {t : Tag} {fs : List (String × Datum)} {v : Datum}

theorem part_of_shape {f : String × Datum} (hf : f ∈ n.shape.toFields) (h : Part v f.2) :
    Part v n.toDatum :=
  show Part v (.record n.toFields) from .field (List.mem_append_right _ hf) h

theorem part_tag (ht : t ∈ n.tags) (h : fs ∈ t.parsed) : Part (.record fs) n.toDatum :=
  have htags : ("tags", .list (n.tags.map Tag.toDatum)) ∈ n.toFields := by simp [toFields]
  show Part (.record fs) (.record n.toFields) from .field htags (.of_mem_map ht (Tag.part h))

theorem part_field {gs : List Field} {g : Field} (hs : n.shape = .object gs) (hg : g ∈ gs)
    (ht : t ∈ g.tags) (h : fs ∈ t.parsed) : Part (.record fs) n.toDatum :=
  n.part_of_shape (f := ("fields", .list (gs.map Field.toDatum))) (by simp [hs, Shape.toFields])
    (.of_mem_map hg (Field.part ht h))

theorem part_literal {k : LiteralKind} {x : Scalar} (hs : n.shape = .literal k x) :
    Part x.toDatum n.toDatum :=
  n.part_of_shape (f := ("value", x.toDatum)) (by simp [hs, Shape.toFields]) (.refl _)

theorem part_enum {ms : List EnumMember} {m : EnumMember} (hs : n.shape = .enum ms) (hm : m ∈ ms) :
    Part m.value.toDatum n.toDatum :=
  n.part_of_shape (f := ("members", .list (ms.map EnumMember.toDatum))) (by simp [hs, Shape.toFields])
    (.of_mem_map hm m.part)

theorem part_discriminant {ms : List NodeId} {δ : Discriminant} {x : Scalar}
    (hs : n.shape = .union ms (some δ)) (hx : x ∈ δ.values) : Part x.toDatum n.toDatum :=
  n.part_of_shape (f := ("discriminant", δ.toDatum)) (by simp [hs, Shape.toFields, Datum.optional])
    (Discriminant.part hx)

end Node

theorem CanonicalGraph.part {g : CanonicalGraph} {id : NodeId} {n : Node} (h : g.node? id = some n) :
    Part n.toDatum g.toDatum := by
  refine .field (f := ("nodes", .record (g.nodes.toList.map fun x => (x.1, x.2.toDatum))))
    (by simp [Graph.toFields]) ?_
  exact .field (List.mem_map_of_mem (Std.ExtTreeMap.mem_toList_iff_getElem?_eq_some.2 h)) (.refl _)

/-! ## Ordered entries -/

def Field.ordered (f : Field) : Field := { f with tags := f.tags.map Tag.ordered }

def Shape.ordered : Shape → Shape
  | .object fs => .object (fs.map Field.ordered)
  | shape => shape

def Node.ordered (n : Node) : Node :=
  { n with shape := n.shape.ordered, tags := n.tags.map Tag.ordered }

def CanonicalGraph.ordered (g : CanonicalGraph) : CanonicalGraph :=
  { g with nodes := g.nodes.map fun _ n => n.ordered }

theorem Tag.recorded_eq {t : Tag} (h : ∀ fs ∈ t.parsed, (Datum.record fs).isFinite) :
    t.recorded = t.ordered := by
  rw [recorded, ordered]
  cases hp : t.parsed with
  | none => rfl
  | some fs => rw [Option.map_some, Option.map_some, Datum.canonicalFields_eq_ordered _ (h fs hp)]

namespace Node

variable {n : Node}

theorem recorded_eq (h : n.toDatum.isFinite) : n.recorded = n.ordered := by
  have htags : n.tags.map Tag.recorded = n.tags.map Tag.ordered :=
    List.map_congr_left fun t ht => Tag.recorded_eq fun fs hfs => (part_tag ht hfs).isFinite h
  have hshape : n.shape.recorded = n.shape.ordered := by
    cases hs : n.shape with
    | object gs =>
      refine congrArg Shape.object (List.map_congr_left fun g hg => ?_)
      rw [Field.recorded, Field.ordered, List.map_congr_left fun t ht =>
        Tag.recorded_eq fun fs hfs => (part_field hs hg ht hfs).isFinite h]
    | _ => rfl
  rw [recorded, ordered, htags, hshape]

theorem recordable (hd : n.toDatum.Distinct) (hf : n.toDatum.isFinite) : n.Recordable where
  tags _ ht _ hfs := (part_tag ht hfs).distinct hd
  fields _ hs _ hg _ ht _ hfs := (part_field hs hg ht hfs).distinct hd
  literal _ x hs := by
    have := (part_literal hs).isFinite hf
    cases x <;> exact this
  enum _ hs _ hm := (part_enum hs hm).isFinite hf
  discriminant _ _ hs x hx := by
    have := (part_discriminant hs hx).isFinite hf
    cases x <;> exact this

end Node

namespace CacheEntry

variable {e : CacheEntry}

/-- The same entry, with the fields of the payloads of tags and of reports in order. -/
def ordered (e : CacheEntry) : CacheEntry :=
  { e with
    graph := e.graph.ordered
    diagnostics := e.diagnostics.map fun fs => Json.sortFields (Datum.orderedFields fs) }

/-- The records of an entry name no field twice, and its numbers are finite. -/
structure Lossless (e : CacheEntry) : Prop where
  distinct : e.toDatum.Distinct
  finite : e.toDatum.isFinite

theorem part_node {id : NodeId} {n : Node} (h : e.graph.node? id = some n) :
    Part n.toDatum e.toDatum :=
  .field (f := ("ir", e.graph.toDatum)) (by simp) (CanonicalGraph.part h)

theorem part_report {fs : List (String × Datum)} (h : fs ∈ e.diagnostics) :
    Part (.record fs) e.toDatum :=
  .field (f := ("diagnostics", .list (e.diagnostics.map .record))) (by simp) (.of_mem_map h (.refl _))

theorem Lossless.recordable (h : e.Lossless) : e.Recordable where
  graph _ _ hn := Node.recordable ((part_node hn).distinct h.distinct) ((part_node hn).isFinite h.finite)
  diagnostics _ hfs := (part_report hfs).distinct h.distinct

theorem Lossless.recorded_eq (h : e.Lossless) : e.recorded = e.ordered := by
  have hnodes : e.graph.recorded = e.graph.ordered := by
    rw [CanonicalGraph.recorded, CanonicalGraph.ordered, Graph.recorded]
    congr 2
    refine Std.ExtTreeMap.ext_getElem? fun id => ?_
    rw [Std.ExtTreeMap.getElem?_map, Std.ExtTreeMap.getElem?_map]
    cases hn : e.graph.nodes[id]? with
    | none => rfl
    | some n => exact congrArg some (Node.recorded_eq ((part_node hn).isFinite h.finite))
  have hdiagnostics : e.diagnostics.map Datum.givenBack =
      e.diagnostics.map fun fs => Json.sortFields (Datum.orderedFields fs) :=
    List.map_congr_left fun fs hfs =>
      congrArg Json.sortFields (Datum.canonicalFields_eq_ordered fs ((part_report hfs).isFinite h.finite))
  rw [recorded, ordered, hnodes, hdiagnostics]

/-- An entry from which nothing is lost is read back as it is. -/
theorem Lossless.read_canonical (h : e.Lossless) : read e.toDatum.canonical = .ok e.ordered := by
  rw [CacheEntry.read_canonical h.recordable.graph, h.recorded_eq]

end CacheEntry

end TypeAtlas
