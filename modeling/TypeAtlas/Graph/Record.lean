import TypeAtlas.Graph.Basic
import TypeAtlas.Schema.Basic

/-! # Graphs as records

The record form of graphs, in which they are exchanged and stored.
-/

namespace TypeAtlas

namespace SourceLocation

def toDatum (l : SourceLocation) : Datum :=
  .record [("file", .text l.file), ("line", Datum.optional .int l.line),
    ("column", Datum.optional .int l.column)]

def read : Datum → Checked SourceLocation :=
  Schema.record ["file", "line", "column"] fun fs =>
    SourceLocation.mk <$> Schema.required fs "file" Schema.text
      <*> Schema.withDefault fs "line" (Schema.nullable Schema.int) none
      <*> Schema.withDefault fs "column" (Schema.nullable Schema.int) none

end SourceLocation

namespace Tag

def toDatum (t : Tag) : Datum := .record t.toFields

def read : Datum → Checked Tag :=
  Schema.record ["name", "raw_arguments", "parsed"] fun fs =>
    Tag.mk <$> Schema.required fs "name" Schema.text
      <*> Schema.withDefault fs "raw_arguments" Schema.text ""
      <*> Schema.withDefault fs "parsed" (Schema.nullable Schema.anyRecord) none

end Tag

/-- The faults of a value that fits no branch of a choice, one for each branch. -/
def Schema.noBranch {α : Type} (branches : List (String × Issue.Kind)) : Checked α :=
  .bad (branches.map fun b => ⟨[b.1], b.2⟩)

namespace Scalar

/-- A truth value, number or text; nothing is converted. -/
def read : Datum → Checked Scalar
  | .bool b => .ok (.bool b)
  | .number n => .ok (.number n)
  | .text s => .ok (.text s)
  | _ => Schema.noBranch
    [("bool", .boolType), ("int", .intType), ("float", .floatType), ("str", .stringType)]

end Scalar

namespace EnumValue

/-- A number or text; a truth value counts as a number. -/
def read : Datum → Checked EnumValue
  | .bool b => .ok (.number (.int (if b then 1 else 0)))
  | .number n => .ok (.number n)
  | .text s => .ok (.text s)
  | _ => Schema.noBranch [("int", .intType), ("float", .floatType), ("str", .stringType)]

end EnumValue

namespace EnumMember

def toDatum (m : EnumMember) : Datum :=
  .record [("name", .text m.name), ("value", m.value.toDatum)]

def read : Datum → Checked EnumMember :=
  Schema.record ["name", "value"] fun fs =>
    EnumMember.mk <$> Schema.required fs "name" Schema.text
      <*> Schema.required fs "value" EnumValue.read

end EnumMember

namespace Field

def toDatum (f : Field) : Datum :=
  .record [("name", .text f.name), ("type", .text f.type), ("optional", .bool f.optional),
    ("readonly", .bool f.readonly), ("tags", .list (f.tags.map Tag.toDatum)),
    ("location", Datum.optional SourceLocation.toDatum f.location)]

def read : Datum → Checked Field :=
  Schema.record ["name", "type", "optional", "readonly", "tags", "location"] fun fs =>
    Field.mk <$> Schema.required fs "name" Schema.text
      <*> Schema.required fs "type" Schema.text
      <*> Schema.withDefault fs "optional" Schema.bool false
      <*> Schema.withDefault fs "readonly" Schema.bool false
      <*> Schema.withDefault fs "tags" (Schema.tuple Tag.read) []
      <*> Schema.withDefault fs "location" (Schema.nullable SourceLocation.read) none

end Field

namespace Discriminant

def toDatum (d : Discriminant) : Datum :=
  .record [("property_name", .text d.property), ("values", .list (d.values.map Scalar.toDatum))]

def read : Datum → Checked Discriminant :=
  Schema.record ["property_name", "values"] fun fs =>
    Discriminant.mk <$> Schema.required fs "property_name" Schema.text
      <*> Schema.required fs "values" (Schema.tuple Scalar.read)

end Discriminant

namespace Shape

def toFields : Shape → List (String × Datum)
  | primitive p => [("name", .text p.name)]
  | literal k v => [("literal_kind", .text k.name), ("value", v.toDatum)]
  | array e => [("element", .text e)]
  | tuple es => [("elements", .texts es)]
  | object fs => [("fields", .list (fs.map Field.toDatum))]
  | union ms d => [("members", .texts ms), ("discriminant", Datum.optional Discriminant.toDatum d)]
  | intersection ms => [("members", .texts ms)]
  | enum ms => [("members", .list (ms.map EnumMember.toDatum))]
  | reference t s => [("target", .text t), ("symbol", .text s)]
  | recursiveRef t s => [("target", .text t), ("symbol", .text s)]
  | unknown r c => [("reason", .text r), ("cause", .text c.name)]

def reader? : String → Option (List String × (List (String × Datum) → Checked Shape))
  | "primitive" => some (["name"], fun fs =>
      primitive <$> Schema.required fs "name" (Schema.oneOf Primitive.ofName?))
  | "literal" => some (["literal_kind", "value"], fun fs =>
      literal <$> Schema.required fs "literal_kind" (Schema.oneOf LiteralKind.ofName?)
        <*> Schema.required fs "value" Scalar.read)
  | "array" => some (["element"], fun fs => array <$> Schema.required fs "element" Schema.text)
  | "tuple" => some (["elements"], fun fs =>
      tuple <$> Schema.withDefault fs "elements" (Schema.tuple Schema.text) [])
  | "object" => some (["fields"], fun fs =>
      object <$> Schema.withDefault fs "fields" (Schema.tuple Field.read) [])
  | "union" => some (["members", "discriminant"], fun fs =>
      union <$> Schema.withDefault fs "members" (Schema.tuple Schema.text) []
        <*> Schema.withDefault fs "discriminant" (Schema.nullable Discriminant.read) none)
  | "intersection" => some (["members"], fun fs =>
      intersection <$> Schema.withDefault fs "members" (Schema.tuple Schema.text) [])
  | "enum" => some (["members"], fun fs =>
      enum <$> Schema.withDefault fs "members" (Schema.tuple EnumMember.read) [])
  | "reference" => some (["target", "symbol"], fun fs =>
      reference <$> Schema.required fs "target" Schema.text
        <*> Schema.required fs "symbol" Schema.text)
  | "recursive_ref" => some (["target", "symbol"], fun fs =>
      recursiveRef <$> Schema.required fs "target" Schema.text
        <*> Schema.required fs "symbol" Schema.text)
  | "unknown" => some (["reason", "cause"], fun fs =>
      unknown <$> Schema.required fs "reason" Schema.text
        <*> Schema.withDefault fs "cause" (Schema.oneOf UnknownCause.ofName?) .unsupported)
  | _ => none

end Shape

namespace Node

def toDatum (n : Node) : Datum :=
  .record ([("kind", .text n.shape.kind), ("node_id", .text n.id),
    ("location", Datum.optional SourceLocation.toDatum n.location),
    ("tags", .list (n.tags.map Tag.toDatum))] ++ n.shape.toFields)

/-- The node that a record describes; its kind decides which fields it has. -/
def read : Datum → Checked Node
  | .record fs =>
    match Datum.field? fs "kind" with
    | none => .fault .unionTagNotFound
    | some (.text kind) =>
      match Shape.reader? kind with
      | none => .fault .unionTagInvalid
      | some (own, readShape) =>
        Checked.within kind <| Schema.record (["kind", "node_id", "location", "tags"] ++ own)
          (fun fs => Node.mk <$> Schema.required fs "node_id" Schema.text
            <*> readShape fs
            <*> Schema.withDefault fs "tags" (Schema.tuple Tag.read) []
            <*> Schema.withDefault fs "location" (Schema.nullable SourceLocation.read) none)
          (.record fs)
    | some _ => .fault .unionTagInvalid
  | _ => .fault .modelAttributesType

end Node

namespace Graph

def toFields (g : Graph) : List (String × Datum) :=
  [("root", .text g.root),
    ("nodes", .record (g.nodes.toList.map fun n => (n.1, n.2.toDatum))),
    ("symbol", .text g.symbol), ("file_path", .text g.filePath),
    ("dependencies", .texts g.dependencies)]

def toDatum (g : Graph) : Datum := .record g.toFields

def readFields (fs : List (String × Datum)) : Checked Graph :=
  Graph.mk <$> Schema.required fs "root" Schema.text
    <*> (Schema.required fs "nodes" (Schema.dict Node.read)).map
      (fun ns => Std.ExtTreeMap.ofList ns)
    <*> Schema.required fs "symbol" Schema.text
    <*> Schema.required fs "file_path" Schema.text
    <*> Schema.withDefault fs "dependencies" (Schema.tuple Schema.text) []

def fieldNames : List String := ["root", "nodes", "symbol", "file_path", "dependencies"]

def read : Datum → Checked Graph := Schema.record fieldNames readFields

end Graph

namespace CanonicalGraph

def toDatum (g : CanonicalGraph) : Datum :=
  .record (g.toGraph.toFields ++ [("algorithm", .text g.algorithm)])

def read : Datum → Checked CanonicalGraph :=
  Schema.record (Graph.fieldNames ++ ["algorithm"]) fun fs =>
    (fun g a => { toGraph := g, algorithm := a }) <$> Graph.readFields fs
      <*> Schema.withDefault fs "algorithm" Schema.text "sha256"

end CanonicalGraph

end TypeAtlas
