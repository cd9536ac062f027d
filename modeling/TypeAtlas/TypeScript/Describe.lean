import TypeAtlas.Number.Reader
import TypeAtlas.TypeScript.ModuleParser
import TypeAtlas.Datum

/-! # Describing syntax

Declarations as descriptions. References to imported names lead to the module that declares them;
what has no description of its own is described by its construct and text.
-/

namespace TypeAtlas.TypeScript

/-- The file and name that an imported name stands for. -/
abbrev Imported := String → Option (String × String)

namespace Piece

def location (p : Piece) : Datum :=
  .record [("line", .int p.line), ("column", .int p.column)]

def describe (p : Piece) (kind : String) (fields : List (String × Datum)) : Datum :=
  .record ([("kind", .text kind)] ++ fields ++ [("location", p.location)])

def unsupported (p : Piece) (construct : String) : Datum :=
  p.describe "unsupported" [("construct", .text construct), ("text", .text p.text)]

end Piece

def without (c : Char) (s : String) : String := String.ofList (s.toList.filter (· != c))

/-- The number that a literal stands for: an integer in any base, or else a decimal number. -/
def literalNumber? (text : String) : Option Number :=
  let cs := (without '_' (without ' ' text)).toList
  match readLiteralInt? cs with
  | some n => some (.int n)
  | none => (readFloat? cs).map .float

/-- A numeric literal, of a number or of a big integer. -/
def describeNumeric (p : Piece) : Datum :=
  match p.text.toList.reverse with
  | 'n' :: digits =>
    p.describe "literal" [("literal_kind", .text "bigint"),
      ("value", .text (without ' ' (String.ofList digits.reverse)))]
  | _ =>
    match literalNumber? p.text with
    | some n => p.describe "literal" [("value", .number n)]
    | none => p.unsupported "literal"

def describeBuiltIn (p : Piece) : Datum :=
  if ["string", "number", "boolean"].contains p.text then
    p.describe "primitive" [("name", .text p.text)]
  else if ["any", "unknown", "void", "never", "symbol"].contains p.text then
    p.describe p.text [("text", .text p.text)]
  else p.unsupported (p.text ++ " keyword")

def describeReference (imported : Imported) (p : Piece) (name : String)
    (arguments : Option (List String)) : Datum :=
  let (target, file) := match imported name with
    | some (file, exported) => (exported, [("file", Datum.text file)])
    | none => (name, [])
  p.describe "ref" ([("name", .text target)] ++ file ++ match arguments with
    | some ts => [("type_arguments", .texts ts)]
    | none => [])

mutual

def TypeSyntax.describe (imported : Imported) : TypeSyntax → Datum
  | .builtIn p => describeBuiltIn p
  | .literal p kind =>
    match kind with
    | .quoted => p.describe "literal" [("value", .text (unquote p.text))]
    | .truth b => p.describe "literal" [("value", .bool b)]
    | .nothing => p.describe "primitive" [("name", .text p.text)]
    | .numeric => describeNumeric p
  | .reference p => describeReference imported p p.text none
  | .generic p name arguments =>
    match name, arguments with
    | "Array", [element] => p.describe "array" [("element", element.describe imported)]
    | "ReadonlyArray", [element] => p.describe "array" [("element", element.describe imported)]
    | _, _ =>
      describeReference imported p name (some (arguments.map fun a => a.piece.text))
  | .array p element => p.describe "array" [("element", element.describe imported)]
  | .tuple p elements => p.describe "tuple" [("elements", .list (describeAll imported elements))]
  | .wrapped _ inner => inner.describe imported
  | .union p members => p.describe "union" [("members", .list (describeAll imported members))]
  | .intersection p members =>
    p.describe "intersection" [("members", .list (describeAll imported members))]
  | .object p members =>
    match describeMembers imported members with
    | some fields => p.describe "object" [("fields", .list fields)]
    | none => p.unsupported "mapped"
  | .template p => p.describe "template_literal" []
  | .other p construct => p.unsupported construct

def describeAll (imported : Imported) : List TypeSyntax → List Datum
  | [] => []
  | t :: ts => t.describe imported :: describeAll imported ts

/-- The fields of an object type, unless it is computed from another type. -/
def describeMembers (imported : Imported) : List MemberSyntax → Option (List Datum)
  | [] => some []
  | m :: ms =>
    match m.describe imported, describeMembers imported ms with
    | some field, some fields => some (field :: fields)
    | _, _ => none

def MemberSyntax.describe (imported : Imported) : MemberSyntax → Option Datum
  | .property p comment name type optional readonly =>
    let described := match type with
      | some t => t.describe imported
      | none => .record [("kind", .text "unsupported"), ("construct", .text "implicit any"),
          ("text", .text name)]
    some (.record [("name", .text name), ("type", described), ("optional", .bool optional),
      ("readonly", .bool readonly), ("comment", Datum.optional .text comment),
      ("location", p.location)])
  | .method p comment name optional readonly =>
    some (.record [("name", .text name), ("type", p.unsupported "function"),
      ("optional", .bool optional), ("readonly", .bool readonly),
      ("comment", Datum.optional .text comment), ("location", p.location)])
  | .signature p comment construct name =>
    some (.record [("name", .text name), ("type", p.unsupported construct),
      ("comment", Datum.optional .text comment), ("location", p.location)])
  | .mapped _ => none

end

/-- The value of an enum member, given the one that counting goes on with. -/
def InitialSyntax.value (next : Option Number) : InitialSyntax → Datum
  | absent => Datum.optional .number next
  | quoted s => .text s
  | numeric text => Datum.optional .number (literalNumber? text)
  | computed => .null

/-- The members of an enum with their values. -/
def describeEnumMembers : Option Number → List EnumMemberSyntax → List Datum
  | _, [] => []
  | next, m :: ms =>
    let value := m.initial.value next
    let following := match value with
      | .number n => some (n.add (.int 1))
      | _ => none
    .record [("name", .text m.name), ("value", value)] :: describeEnumMembers following ms

def DeclarationSyntax.describe (imported : Imported) (d : DeclarationSyntax) : Datum :=
  let p : Piece := ⟨d.line, d.column, ""⟩
  if d.generic then p.describe "generic" [("text", .text (d.name ++ " declares type parameters"))]
  else match d.body with
    | .enum members =>
      p.describe "enum" [("members", .list (describeEnumMembers (some (.int 0)) members))]
    | .interface [] body => body.describe imported
    | .interface bases body =>
      p.describe "intersection"
        [("members", .list (describeAll imported bases ++ [body.describe imported]))]
    | .typeAlias value => value.describe imported

end TypeAtlas.TypeScript
