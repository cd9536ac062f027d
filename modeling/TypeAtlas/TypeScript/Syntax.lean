import TypeAtlas.TypeScript.Token

/-! # Syntax

The types and declarations of a source file, as far as they can be described. Of everything else
only the construct and its text are kept.
-/

namespace TypeAtlas.TypeScript

/-- Where a part of a file starts, and its text. -/
structure Piece where
  line : Nat
  column : Nat
  text : String
deriving DecidableEq, Inhabited, Repr

/-- What a literal type is made of. -/
inductive LiteralSyntax where
  | quoted
  | truth (b : Bool)
  /-- Null or undefined. -/
  | nothing
  | numeric
deriving DecidableEq, Inhabited, Repr

mutual

inductive TypeSyntax where
  /-- A type with a name of its own in the language. -/
  | builtIn (p : Piece)
  | literal (p : Piece) (kind : LiteralSyntax)
  | reference (p : Piece)
  | generic (p : Piece) (name : String) (arguments : List TypeSyntax)
  | array (p : Piece) (element : TypeSyntax)
  | tuple (p : Piece) (elements : List TypeSyntax)
  /-- In parentheses, or read-only. -/
  | wrapped (p : Piece) (inner : TypeSyntax)
  | union (p : Piece) (members : List TypeSyntax)
  | intersection (p : Piece) (members : List TypeSyntax)
  | object (p : Piece) (members : List MemberSyntax)
  | template (p : Piece)
  | other (p : Piece) (construct : String)

/-- A member of an object type, with the documentation in front of it. -/
inductive MemberSyntax where
  | property (p : Piece) (comment : Option String) (name : String) (type : Option TypeSyntax)
      (optional readonly : Bool)
  | method (p : Piece) (comment : Option String) (name : String) (optional readonly : Bool)
  | signature (p : Piece) (comment : Option String) (construct name : String)
  /-- The clause by which an object type is computed from another type. -/
  | mapped (p : Piece)

end

instance : Inhabited TypeSyntax := ⟨.template default⟩

namespace TypeSyntax

def piece : TypeSyntax → Piece
  | builtIn p | literal p _ | reference p | generic p .. | array p _ | tuple p _ | wrapped p _
  | union p _ | intersection p _ | object p _ | template p | other p _ => p

/-- The members of a union; any other type is its only member. -/
def unionMembers : TypeSyntax → List TypeSyntax
  | union _ ms => ms
  | t => [t]

def intersectionMembers : TypeSyntax → List TypeSyntax
  | intersection _ ms => ms
  | t => [t]

end TypeSyntax

/-- What the value of an enum member is written as. -/
inductive InitialSyntax where
  /-- Counted on from the member before. -/
  | absent
  | quoted (text : String)
  /-- A number, perhaps with a sign. -/
  | numeric (text : String)
  | computed
deriving DecidableEq, Inhabited, Repr

structure EnumMemberSyntax where
  name : String
  initial : InitialSyntax
deriving DecidableEq, Inhabited, Repr

inductive DeclarationBody where
  | interface (bases : List TypeSyntax) (body : TypeSyntax)
  | typeAlias (value : TypeSyntax)
  | enum (members : List EnumMemberSyntax)

structure DeclarationSyntax where
  name : String
  line : Nat
  column : Nat
  comment : Option String
  /-- Whether the declaration has type parameters. -/
  generic : Bool
  body : DeclarationBody

/-- A name imported from another module. -/
structure ImportSyntax where
  localName : String
  module : String
  exportedName : String
deriving DecidableEq, Inhabited, Repr

/-- What a file declares and imports, in textual order. -/
structure ModuleSyntax where
  declarations : List DeclarationSyntax := []
  imports : List ImportSyntax := []

namespace ModuleSyntax

def declaration? (m : ModuleSyntax) (name : String) : Option DeclarationSyntax :=
  m.declarations.find? fun d => d.name == name

def import? (m : ModuleSyntax) (name : String) : Option ImportSyntax :=
  m.imports.reverse.find? fun i => i.localName == name

end ModuleSyntax

end TypeAtlas.TypeScript
