import TypeAtlas.Graph.Record
import TypeAtlas.Proofs.Json.ReadBack
import TypeAtlas.Proofs.Normal.Erased
import TypeAtlas.Proofs.Schema.ReadBack

/-! # Recorded graphs

A graph read from its record is the same graph, except for the payloads of tags: these are in order,
and a number that is not finite is null. The values in its nodes must be finite, since a document has
no other numbers.
-/

namespace TypeAtlas

/-! ## What a document gives back -/

/-- The tag with its payload as a document gives it back: in order, and with null for a number that
is not finite. -/
def Tag.recorded (t : Tag) : Tag :=
  { t with parsed := t.parsed.map fun fs => Json.sortFields (Datum.canonicalFields fs) }

def Field.recorded (f : Field) : Field := { f with tags := f.tags.map Tag.recorded }

def Shape.recorded : Shape → Shape
  | .object fs => .object (fs.map Field.recorded)
  | shape => shape

def Node.recorded (n : Node) : Node :=
  { n with shape := n.shape.recorded, tags := n.tags.map Tag.recorded }

def Graph.recorded (g : Graph) : Graph := { g with nodes := g.nodes.map fun _ n => n.recorded }

def CanonicalGraph.recorded (g : CanonicalGraph) : CanonicalGraph :=
  { toGraph := g.toGraph.recorded, algorithm := g.algorithm }

/-- The values that the shape names are finite. -/
def Shape.Recordable : Shape → Prop
  | .literal _ x => x.isFinite
  | .enum ms => ∀ m ∈ ms, m.value.toDatum.isFinite
  | .union _ δ => ∀ d ∈ δ, ∀ x ∈ d.values, x.isFinite
  | _ => True

/-- The payload of the tag has no repeated names. -/
def Tag.Recordable (t : Tag) : Prop := ∀ fs ∈ t.parsed, (Datum.record fs).Distinct

/-- The payloads of tags have no repeated names, and values are finite. -/
structure Node.Lossless (n : Node) : Prop where
  tags : ∀ t ∈ n.tags, t.Recordable
  fields : ∀ fs, n.shape = .object fs → ∀ f ∈ fs, ∀ t ∈ f.tags, t.Recordable
  literal : ∀ k x, n.shape = .literal k x → x.isFinite
  enum : ∀ ms, n.shape = .enum ms → ∀ m ∈ ms, m.value.toDatum.isFinite

/-- So are the values that tell members apart: nothing but the order in payloads is lost when the node
is recorded. -/
structure Node.Recordable (n : Node) : Prop extends n.Lossless where
  discriminant : ∀ ms δ, n.shape = .union ms (some δ) → ∀ x ∈ δ.values, x.isFinite

theorem Node.Recordable.values {n : Node} (h : n.Recordable) : n.shape.Recordable := by
  have hliteral := h.literal
  have henum := h.enum
  have hdiscriminant := h.discriminant
  cases hs : n.shape with
  | literal k x => exact hliteral k x hs
  | enum ms => exact henum ms hs
  | union ms δ => exact fun d hd => hdiscriminant ms d (hs.trans (congrArg _ hd))
  | _ => trivial

def Graph.Recordable (g : Graph) : Prop := ∀ id n, g.node? id = some n → n.Recordable

/-! ## Records without repeated names -/

namespace Datum

theorem distinct_texts (ss : List String) : (texts ss).Distinct := by
  refine .list fun d hd => ?_
  obtain ⟨s, -, rfl⟩ := List.mem_map.1 hd
  exact .text s

theorem distinct_list {α : Type} {f : α → Datum} {xs : List α} (h : ∀ x ∈ xs, (f x).Distinct) :
    (list (xs.map f)).Distinct := by
  refine .list fun d hd => ?_
  obtain ⟨x, hx, rfl⟩ := List.mem_map.1 hd
  exact h x hx

theorem distinct_optional {α : Type} {f : α → Datum} {x : Option α} (h : ∀ a ∈ x, (f a).Distinct) :
    (optional f x).Distinct := by
  cases x with
  | none => exact .null
  | some a => exact h a rfl

theorem distinct_table {α : Type} {f : α → Datum} {m : Std.ExtTreeMap String α}
    (h : ∀ (k : String) (a : α), m[k]? = some a → (f a).Distinct) :
    (record (m.toList.map fun x => (x.1, f x.2))).Distinct := by
  refine .record ?_ fun x hx => ?_
  · rw [List.map_map, List.nodup_iff_pairwise_ne, List.pairwise_map]
    refine Std.ExtTreeMap.distinct_keys_toList.imp fun {x y} hxy he => hxy ?_
    rw [show x.1 = y.1 from he]
    exact Std.ReflCmp.compare_self
  · obtain ⟨y, hy, rfl⟩ := List.mem_map.1 hx
    exact h y.1 y.2 (Std.ExtTreeMap.mem_toList_iff_getElem?_eq_some.1 hy)

end Datum

theorem Scalar.distinct_toDatum (x : Scalar) : x.toDatum.Distinct := by
  cases x with
  | bool b => exact .bool b
  | number n => exact .number n
  | text s => exact .text s

theorem EnumValue.distinct_toDatum (x : EnumValue) : x.toDatum.Distinct := by
  cases x with
  | number n => exact .number n
  | text s => exact .text s

theorem SourceLocation.distinct_toDatum (l : SourceLocation) : l.toDatum.Distinct := by
  refine .record (by simp) ?_
  simp only [List.forall_mem_cons, List.not_mem_nil, false_implies, implies_true, and_true]
  exact ⟨.text _, Datum.distinct_optional fun n _ => .number _,
    Datum.distinct_optional fun n _ => .number _⟩

theorem Tag.Recordable.distinct {t : Tag} (h : t.Recordable) : t.toDatum.Distinct := by
  refine .record (by simp [toFields]) ?_
  simp only [toFields, List.forall_mem_cons, List.not_mem_nil, false_implies, implies_true, and_true]
  exact ⟨.text _, .text _, Datum.distinct_optional h⟩

theorem Field.distinct_toDatum {f : Field} (h : ∀ t ∈ f.tags, t.Recordable) :
    f.toDatum.Distinct := by
  refine .record (by simp) ?_
  simp only [List.forall_mem_cons, List.not_mem_nil, false_implies, implies_true, and_true]
  exact ⟨.text _, .text _, .bool _, .bool _, Datum.distinct_list fun t ht => (h t ht).distinct,
    Datum.distinct_optional fun l _ => l.distinct_toDatum⟩

theorem EnumMember.distinct_toDatum (m : EnumMember) : m.toDatum.Distinct := by
  refine .record (by simp) ?_
  simp only [List.forall_mem_cons, List.not_mem_nil, false_implies, implies_true, and_true]
  exact ⟨.text _, m.value.distinct_toDatum⟩

theorem Discriminant.distinct_toDatum (d : Discriminant) : d.toDatum.Distinct := by
  refine .record (by simp) ?_
  simp only [List.forall_mem_cons, List.not_mem_nil, false_implies, implies_true, and_true]
  exact ⟨.text _, Datum.distinct_list fun x _ => x.distinct_toDatum⟩

theorem Node.Recordable.distinct_shape {n : Node} (h : n.Recordable) :
    ∀ f ∈ n.shape.toFields, f.2.Distinct := by
  have hfields := h.fields
  cases hs : n.shape with
  | object fs =>
    rw [Shape.toFields, List.forall_mem_singleton]
    exact Datum.distinct_list fun f hf => Field.distinct_toDatum (hfields fs hs f hf)
  | union ms δ =>
    simp only [Shape.toFields, List.forall_mem_cons, List.not_mem_nil, false_implies, implies_true,
      and_true]
    exact ⟨Datum.distinct_texts ms, Datum.distinct_optional fun d _ => d.distinct_toDatum⟩
  | enum ms =>
    rw [Shape.toFields, List.forall_mem_singleton]
    exact Datum.distinct_list fun m _ => m.distinct_toDatum
  | literal k x =>
    simp only [Shape.toFields, List.forall_mem_cons, List.not_mem_nil, false_implies, implies_true,
      and_true]
    exact ⟨.text _, x.distinct_toDatum⟩
  | tuple es | intersection es =>
    rw [Shape.toFields, List.forall_mem_singleton]
    exact Datum.distinct_texts es
  | _ =>
    simp only [Shape.toFields, List.forall_mem_cons, List.not_mem_nil, false_implies, implies_true,
      and_true]
    simp only [Datum.Distinct.text, and_self]

namespace Node

def toFields (n : Node) : List (String × Datum) :=
  [("kind", .text n.shape.kind), ("node_id", .text n.id),
    ("location", Datum.optional SourceLocation.toDatum n.location),
    ("tags", .list (n.tags.map Tag.toDatum))] ++ n.shape.toFields

theorem nodup_toFields (n : Node) : (n.toFields.map Prod.fst).Nodup := by
  rw [toFields, List.map_append]
  cases n.shape <;> simp [Shape.toFields]

theorem field?_toFields {n : Node} {f : String × Datum} (h : f ∈ n.toFields) :
    Datum.field? n.toFields f.1 = some f.2 :=
  (Datum.field?_eq_some n.nodup_toFields).2 h

theorem Recordable.distinct {n : Node} (h : n.Recordable) : n.toDatum.Distinct := by
  refine .record n.nodup_toFields fun f hf => ?_
  rcases List.mem_append.1 hf with hf | hf
  · simp only [List.mem_cons, List.not_mem_nil, or_false] at hf
    rcases hf with rfl | rfl | rfl | rfl
    · exact .text _
    · exact .text _
    · exact Datum.distinct_optional fun l _ => l.distinct_toDatum
    · exact Datum.distinct_list fun t ht => (h.tags t ht).distinct
  · exact h.distinct_shape f hf

end Node

theorem Graph.Recordable.distinct_fields {g : Graph} (h : g.Recordable) :
    ∀ f ∈ g.toFields, f.2.Distinct := by
  simp only [toFields, List.forall_mem_cons, List.not_mem_nil, false_implies, implies_true, and_true]
  exact ⟨.text _, Datum.distinct_table fun id n hn => (h id n hn).distinct, .text _, .text _,
    Datum.distinct_texts _⟩

theorem CanonicalGraph.nodup_toFields (g : CanonicalGraph) :
    ((g.toGraph.toFields ++ [("algorithm", Datum.text g.algorithm)]).map Prod.fst).Nodup := by
  simp [Graph.toFields]

theorem Graph.Recordable.distinct {g : CanonicalGraph} (h : g.toGraph.Recordable) :
    g.toDatum.Distinct := by
  refine .record g.nodup_toFields fun f hf => ?_
  rcases List.mem_append.1 hf with hf | hf
  · exact h.distinct_fields f hf
  · rw [List.mem_singleton.1 hf]
    exact .text _

/-! ## Reading back -/

theorem SourceLocation.read_canonical (l : SourceLocation) : read l.toDatum.canonical = .ok l := by
  have hint (x : Option ℤ) :
      Schema.nullable Schema.int (Datum.optional Datum.int x).canonical = .ok x := by
    cases x <;> rfl
  refine Schema.record_canonical (by simp) (by simp) fun gs hgs => ?_
  have hfile : Schema.required gs "file" Schema.text = .ok l.file :=
    Schema.required_of_gives hgs (d := .text l.file) (by simp [Datum.field?]) rfl
  have hline : Schema.withDefault gs "line" (Schema.nullable Schema.int) none = .ok l.line :=
    Schema.withDefault_of_gives hgs (d := Datum.optional .int l.line) (by simp [Datum.field?])
      (hint l.line)
  have hcolumn : Schema.withDefault gs "column" (Schema.nullable Schema.int) none = .ok l.column :=
    Schema.withDefault_of_gives hgs (d := Datum.optional .int l.column) (by simp [Datum.field?])
      (hint l.column)
  rw [hfile, hline, hcolumn]
  rfl

theorem Tag.read_canonical (t : Tag) : read t.toDatum.canonical = .ok t.recorded := by
  refine Schema.record_canonical (by simp [toFields]) (by simp [toFields]) fun gs hgs => ?_
  have hname : Schema.required gs "name" Schema.text = .ok t.name :=
    Schema.required_of_gives hgs (d := .text t.name) (by simp [toFields, Datum.field?]) rfl
  have harguments : Schema.withDefault gs "raw_arguments" Schema.text "" = .ok t.rawArguments :=
    Schema.withDefault_of_gives hgs (d := .text t.rawArguments) (by simp [toFields, Datum.field?]) rfl
  have hparsed : Schema.withDefault gs "parsed" (Schema.nullable Schema.anyRecord) none =
      .ok t.recorded.parsed :=
    Schema.withDefault_of_gives hgs (d := Datum.optional .record t.parsed)
      (by simp [toFields, Datum.field?])
      (Schema.nullable_canonical (fun fs => by simp [Datum.canonical]) fun fs _ => by
        rw [Datum.canonical]
        rfl)
  rw [hname, harguments, hparsed]
  rfl

theorem Scalar.read_canonical {x : Scalar} (h : x.isFinite) :
    read x.toDatum.canonical = .ok x := by
  rw [canonical_toDatum h]
  cases x <;> rfl

theorem EnumValue.read_canonical {x : EnumValue} (h : x.toDatum.isFinite) :
    read x.toDatum.canonical = .ok x := by
  rw [Datum.canonical_eq_ordered _ h]
  cases x <;> rfl

theorem EnumMember.read_canonical {m : EnumMember} (h : m.value.toDatum.isFinite) :
    read m.toDatum.canonical = .ok m := by
  refine Schema.record_canonical (by simp) (by simp) fun gs hgs => ?_
  have hname : Schema.required gs "name" Schema.text = .ok m.name :=
    Schema.required_of_gives hgs (d := .text m.name) (by simp [Datum.field?]) rfl
  have hvalue : Schema.required gs "value" EnumValue.read = .ok m.value :=
    Schema.required_of_gives hgs (d := m.value.toDatum) (by simp [Datum.field?])
      (EnumValue.read_canonical h)
  rw [hname, hvalue]
  rfl

theorem Discriminant.read_canonical {d : Discriminant} (h : ∀ x ∈ d.values, x.isFinite) :
    read d.toDatum.canonical = .ok d := by
  refine Schema.record_canonical (by simp) (by simp) fun gs hgs => ?_
  have hproperty : Schema.required gs "property_name" Schema.text = .ok d.property :=
    Schema.required_of_gives hgs (d := .text d.property) (by simp [Datum.field?]) rfl
  have hvalues : Schema.required gs "values" (Schema.tuple Scalar.read) = .ok d.values := by
    refine Schema.required_of_gives hgs (d := .list (d.values.map Scalar.toDatum))
      (by simp [Datum.field?]) ?_
    rw [Schema.tuple_canonical (f := Scalar.toDatum) (g := id) fun x hx =>
      Scalar.read_canonical (h x hx), List.map_id]
  rw [hproperty, hvalues]
  rfl

theorem readTags_canonical (ts : List Tag) :
    Schema.tuple Tag.read (Datum.list (ts.map Tag.toDatum)).canonical = .ok (ts.map Tag.recorded) :=
  Schema.tuple_canonical fun t _ => t.read_canonical

theorem readLocation_canonical (l : Option SourceLocation) :
    Schema.nullable SourceLocation.read (Datum.optional SourceLocation.toDatum l).canonical =
      .ok l := by
  rw [Schema.nullable_canonical (g := id) (fun l => by simp [SourceLocation.toDatum, Datum.canonical])
    fun l _ => l.read_canonical, Option.map_id, id]

theorem Field.read_canonical (f : Field) : read f.toDatum.canonical = .ok f.recorded := by
  refine Schema.record_canonical (by simp) (by simp) fun gs hgs => ?_
  have hname : Schema.required gs "name" Schema.text = .ok f.name :=
    Schema.required_of_gives hgs (d := .text f.name) (by simp [Datum.field?]) rfl
  have htype : Schema.required gs "type" Schema.text = .ok f.type :=
    Schema.required_of_gives hgs (d := .text f.type) (by simp [Datum.field?]) rfl
  have hoptional : Schema.withDefault gs "optional" Schema.bool false = .ok f.optional :=
    Schema.withDefault_of_gives hgs (d := .bool f.optional) (by simp [Datum.field?]) rfl
  have hreadonly : Schema.withDefault gs "readonly" Schema.bool false = .ok f.readonly :=
    Schema.withDefault_of_gives hgs (d := .bool f.readonly) (by simp [Datum.field?]) rfl
  have htags : Schema.withDefault gs "tags" (Schema.tuple Tag.read) [] = .ok f.recorded.tags :=
    Schema.withDefault_of_gives hgs (d := .list (f.tags.map Tag.toDatum)) (by simp [Datum.field?])
      (readTags_canonical f.tags)
  have hlocation : Schema.withDefault gs "location" (Schema.nullable SourceLocation.read) none =
      .ok f.location :=
    Schema.withDefault_of_gives hgs (d := Datum.optional SourceLocation.toDatum f.location)
      (by simp [Datum.field?]) (readLocation_canonical f.location)
  rw [hname, htype, hoptional, hreadonly, htags, hlocation]
  rfl

namespace Shape

theorem exists_reader {shape : Shape} (h : shape.Recordable) :
    ∃ own readShape, reader? shape.kind = some (own, readShape) ∧
      own = shape.toFields.map Prod.fst ∧
        ∀ gs, (∀ f ∈ shape.toFields, Datum.field? gs f.1 = some f.2.canonical) →
          readShape gs = .ok shape.recorded := by
  cases shape with
  | primitive p =>
    refine ⟨_, _, rfl, rfl, fun gs hgs => ?_⟩
    have hname : Schema.required gs "name" (Schema.oneOf Primitive.ofName?) = .ok p :=
      Schema.required_eq_ok (hgs ("name", .text p.name) (by simp [toFields])) (by cases p <;> rfl)
    rw [hname]
    rfl
  | literal k x =>
    refine ⟨_, _, rfl, rfl, fun gs hgs => ?_⟩
    have hkind : Schema.required gs "literal_kind" (Schema.oneOf LiteralKind.ofName?) = .ok k :=
      Schema.required_eq_ok (hgs ("literal_kind", .text k.name) (by simp [toFields]))
        (by cases k <;> rfl)
    have hvalue : Schema.required gs "value" Scalar.read = .ok x :=
      Schema.required_eq_ok (hgs ("value", x.toDatum) (by simp [toFields]))
        (Scalar.read_canonical h)
    rw [hkind, hvalue]
    rfl
  | array e =>
    refine ⟨_, _, rfl, rfl, fun gs hgs => ?_⟩
    have helement : Schema.required gs "element" Schema.text = .ok e :=
      Schema.required_eq_ok (hgs ("element", .text e) (by simp [toFields])) rfl
    rw [helement]
    rfl
  | tuple es =>
    refine ⟨_, _, rfl, rfl, fun gs hgs => ?_⟩
    have helements : Schema.withDefault gs "elements" (Schema.tuple Schema.text) [] = .ok es :=
      Schema.withDefault_eq_ok (hgs ("elements", .texts es) (by simp [toFields]))
        (Schema.texts_canonical es)
    rw [helements]
    rfl
  | object fs =>
    refine ⟨_, _, rfl, rfl, fun gs hgs => ?_⟩
    have hfields : Schema.withDefault gs "fields" (Schema.tuple Field.read) [] =
        .ok (fs.map Field.recorded) :=
      Schema.withDefault_eq_ok (hgs ("fields", .list (fs.map Field.toDatum)) (by simp [toFields]))
        (Schema.tuple_canonical fun f _ => f.read_canonical)
    rw [hfields]
    rfl
  | union ms δ =>
    refine ⟨_, _, rfl, rfl, fun gs hgs => ?_⟩
    have hmembers : Schema.withDefault gs "members" (Schema.tuple Schema.text) [] = .ok ms :=
      Schema.withDefault_eq_ok (hgs ("members", .texts ms) (by simp [toFields]))
        (Schema.texts_canonical ms)
    have hdiscriminant : Schema.withDefault gs "discriminant" (Schema.nullable Discriminant.read)
        none = .ok δ := by
      refine Schema.withDefault_eq_ok (hgs ("discriminant", Datum.optional Discriminant.toDatum δ)
        (by simp [toFields])) ?_
      rw [Schema.nullable_canonical (f := Discriminant.toDatum) (g := id)
        (fun d => by simp [Discriminant.toDatum, Datum.canonical])
        fun d hd => Discriminant.read_canonical (h d hd), Option.map_id, id]
    rw [hmembers, hdiscriminant]
    rfl
  | intersection ms =>
    refine ⟨_, _, rfl, rfl, fun gs hgs => ?_⟩
    have hmembers : Schema.withDefault gs "members" (Schema.tuple Schema.text) [] = .ok ms :=
      Schema.withDefault_eq_ok (hgs ("members", .texts ms) (by simp [toFields]))
        (Schema.texts_canonical ms)
    rw [hmembers]
    rfl
  | enum ms =>
    refine ⟨_, _, rfl, rfl, fun gs hgs => ?_⟩
    have hmembers : Schema.withDefault gs "members" (Schema.tuple EnumMember.read) [] = .ok ms := by
      refine Schema.withDefault_eq_ok (hgs ("members", .list (ms.map EnumMember.toDatum))
        (by simp [toFields])) ?_
      rw [Schema.tuple_canonical (f := EnumMember.toDatum) (g := id) fun m hm =>
        EnumMember.read_canonical (h m hm), List.map_id]
    rw [hmembers]
    rfl
  | reference target symbol =>
    refine ⟨_, _, rfl, rfl, fun gs hgs => ?_⟩
    have htarget : Schema.required gs "target" Schema.text = .ok target :=
      Schema.required_eq_ok (hgs ("target", .text target) (by simp [toFields])) rfl
    have hsymbol : Schema.required gs "symbol" Schema.text = .ok symbol :=
      Schema.required_eq_ok (hgs ("symbol", .text symbol) (by simp [toFields])) rfl
    rw [htarget, hsymbol]
    rfl
  | recursiveRef target symbol =>
    refine ⟨_, _, rfl, rfl, fun gs hgs => ?_⟩
    have htarget : Schema.required gs "target" Schema.text = .ok target :=
      Schema.required_eq_ok (hgs ("target", .text target) (by simp [toFields])) rfl
    have hsymbol : Schema.required gs "symbol" Schema.text = .ok symbol :=
      Schema.required_eq_ok (hgs ("symbol", .text symbol) (by simp [toFields])) rfl
    rw [htarget, hsymbol]
    rfl
  | unknown reason cause =>
    refine ⟨_, _, rfl, rfl, fun gs hgs => ?_⟩
    have hreason : Schema.required gs "reason" Schema.text = .ok reason :=
      Schema.required_eq_ok (hgs ("reason", .text reason) (by simp [toFields])) rfl
    have hcause : Schema.withDefault gs "cause" (Schema.oneOf UnknownCause.ofName?) .unsupported =
        .ok cause :=
      Schema.withDefault_eq_ok (hgs ("cause", .text cause.name) (by simp [toFields]))
        (by cases cause <;> rfl)
    rw [hreason, hcause]
    rfl

end Shape

namespace Node

theorem read_canonical {n : Node} (h : n.shape.Recordable) : read n.toDatum.canonical = .ok n.recorded := by
  obtain ⟨own, readShape, hreader, rfl, hshape⟩ := n.shape.exists_reader h
  have hrecord : Schema.record (["kind", "node_id", "location", "tags"] ++ n.shape.toFields.map Prod.fst)
      (fun fs => Node.mk <$> Schema.required fs "node_id" Schema.text
        <*> readShape fs
        <*> Schema.withDefault fs "tags" (Schema.tuple Tag.read) []
        <*> Schema.withDefault fs "location" (Schema.nullable SourceLocation.read) none)
      (Datum.record n.toFields).canonical = .ok n.recorded := by
    refine Schema.record_canonical n.nodup_toFields ?_ fun gs hgs => ?_
    · intro f hf
      rcases List.mem_append.1 hf with hf | hf
      · refine List.mem_append_left _ ?_
        simp only [List.mem_cons, List.not_mem_nil, or_false] at hf
        rcases hf with rfl | rfl | rfl | rfl <;> simp
      · exact List.mem_append_right _ (List.mem_map_of_mem hf)
    have hid : Schema.required gs "node_id" Schema.text = .ok n.id :=
      Schema.required_of_gives hgs (field?_toFields (f := ("node_id", .text n.id)) (by simp [toFields]))
        rfl
    have htags : Schema.withDefault gs "tags" (Schema.tuple Tag.read) [] = .ok n.recorded.tags :=
      Schema.withDefault_of_gives hgs
        (field?_toFields (f := ("tags", .list (n.tags.map Tag.toDatum))) (by simp [toFields]))
        (readTags_canonical n.tags)
    have hlocation : Schema.withDefault gs "location" (Schema.nullable SourceLocation.read) none =
        .ok n.location :=
      Schema.withDefault_of_gives hgs
        (field?_toFields (f := ("location", Datum.optional SourceLocation.toDatum n.location))
          (by simp [toFields]))
        (readLocation_canonical n.location)
    rw [hid, htags, hlocation, hshape gs fun f hf => hgs.field?
      (field?_toFields (List.mem_append_right _ hf))]
    rfl
  have hkind : Datum.field? (Json.sortFields (Datum.canonicalFields n.toFields)) "kind" =
      some (.text n.shape.kind) := by
    rw [Datum.field?_sortFields_canonicalFields n.nodup_toFields,
      field?_toFields (f := ("kind", .text n.shape.kind)) (by simp [toFields])]
    rfl
  rw [Datum.canonical] at hrecord
  rw [show n.toDatum = .record n.toFields from rfl, Datum.canonical, read, hkind]
  simp only [hreader, hrecord]
  rfl

end Node

/-- A graph is read from whatever fields its own are among. -/
theorem Graph.readFields_of_gives {g : Graph} {gs fs : List (String × Datum)} (h : g.Recordable)
    (hgs : Schema.Gives gs fs) (hfs : ∀ f ∈ g.toFields, Datum.field? fs f.1 = some f.2) :
    readFields gs = .ok g.recorded := by
  have hroot : Schema.required gs "root" Schema.text = .ok g.root :=
    Schema.required_of_gives hgs (hfs ("root", .text g.root) (by simp [toFields])) rfl
  obtain ⟨ns, hdict, hmap⟩ := Schema.table_canonical (f := Node.toDatum) (g := Node.recorded)
    (m := g.nodes) fun id n hn => Node.read_canonical (h id n hn).values
  have hnodes : Schema.required gs "nodes" (Schema.dict Node.read) = .ok ns :=
    Schema.required_of_gives hgs (hfs ("nodes", _) (by simp [toFields])) hdict
  have hsymbol : Schema.required gs "symbol" Schema.text = .ok g.symbol :=
    Schema.required_of_gives hgs (hfs ("symbol", .text g.symbol) (by simp [toFields])) rfl
  have hfile : Schema.required gs "file_path" Schema.text = .ok g.filePath :=
    Schema.required_of_gives hgs (hfs ("file_path", .text g.filePath) (by simp [toFields])) rfl
  have hdependencies : Schema.withDefault gs "dependencies" (Schema.tuple Schema.text) [] =
      .ok g.dependencies :=
    Schema.withDefault_of_gives hgs (hfs ("dependencies", .texts g.dependencies)
      (by simp [toFields])) (Schema.texts_canonical g.dependencies)
  rw [readFields, hroot, hnodes, hsymbol, hfile, hdependencies, recorded, ← hmap]
  rfl

theorem CanonicalGraph.read_canonical {g : CanonicalGraph} (h : g.toGraph.Recordable) :
    read g.toDatum.canonical = .ok g.recorded := by
  refine Schema.record_canonical g.nodup_toFields (by simp [Graph.toFields, Graph.fieldNames]) fun gs hgs => ?_
  have hgraph : Graph.readFields gs = .ok g.toGraph.recorded :=
    Graph.readFields_of_gives h hgs fun f hf =>
      (Datum.field?_eq_some g.nodup_toFields).2 (List.mem_append_left _ hf)
  have halgorithm : Schema.withDefault gs "algorithm" Schema.text "sha256" = .ok g.algorithm :=
    Schema.withDefault_of_gives hgs (d := .text g.algorithm)
      ((Datum.field?_eq_some g.nodup_toFields).2 (by simp)) rfl
  rw [hgraph, halgorithm]
  rfl

end TypeAtlas
