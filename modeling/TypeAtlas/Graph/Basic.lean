import Std.Data.ExtTreeMap
import Std.Data.ExtTreeSet
import TypeAtlas.Tag.Comment

/-! # Type graphs

The structure of a type as an arena of nodes addressed by name. Composite nodes name their
children, and recursion is a node of its own that names an enclosing node.
-/

namespace TypeAtlas

abbrev NodeId := String

structure SourceLocation where
  file : String
  line : Option Int := none
  column : Option Int := none
deriving DecidableEq, Inhabited, Repr

inductive Primitive where
  | string | number | boolean | bigint | null | undefined
deriving DecidableEq, Inhabited, Repr

namespace Primitive

def name : Primitive → String
  | string => "string"
  | number => "number"
  | boolean => "boolean"
  | bigint => "bigint"
  | null => "null"
  | undefined => "undefined"

def all : List Primitive := [string, number, boolean, bigint, null, undefined]

def ofName? (s : String) : Option Primitive := all.find? fun p => p.name == s

/-- Null and undefined, which go with any other member of a union. -/
def isNeutral : Primitive → Bool
  | null | undefined => true
  | _ => false

end Primitive

inductive LiteralKind where
  | string | number | boolean | bigint
deriving DecidableEq, Inhabited, Repr

namespace LiteralKind

def name : LiteralKind → String
  | string => "string"
  | number => "number"
  | boolean => "boolean"
  | bigint => "bigint"

def all : List LiteralKind := [string, number, boolean, bigint]

def ofName? (s : String) : Option LiteralKind := all.find? fun k => k.name == s

end LiteralKind

inductive UnknownCause where
  | unsupported | unresolved | recursion | heterogeneous
deriving DecidableEq, Inhabited, Repr

namespace UnknownCause

def name : UnknownCause → String
  | unsupported => "unsupported"
  | unresolved => "unresolved"
  | recursion => "recursion"
  | heterogeneous => "heterogeneous"

def all : List UnknownCause := [unsupported, unresolved, recursion, heterogeneous]

def ofName? (s : String) : Option UnknownCause := all.find? fun c => c.name == s

end UnknownCause

/-- The value of a literal type. Literals of big integers are kept as decimal text. -/
inductive Scalar where
  | bool (b : Bool)
  | number (n : Number)
  | text (s : String)
deriving DecidableEq, Inhabited, Repr

namespace Scalar

def toDatum : Scalar → Datum
  | bool b => .bool b
  | number n => .number n
  | text s => .text s

/-- A truth value counts as zero or one when it is compared. -/
def toNumber? : Scalar → Option Number
  | bool b => some (.int (if b then 1 else 0))
  | number n => some n
  | text _ => none

/-- Equal as values: numbers by what they stand for. -/
def same (a b : Scalar) : Bool :=
  match a, b with
  | text s, text t => s == t
  | _, _ =>
    match a.toNumber?, b.toNumber? with
    | some m, some n => m.same n
    | _, _ => false

/-- Truth values, floating-point numbers, integers and texts come in this order. -/
def rank : Scalar → Nat
  | bool _ => 0
  | number (.float _) => 1
  | number (.int _) => 2
  | text _ => 3

def le (a b : Scalar) : Bool :=
  if a.rank != b.rank then decide (a.rank < b.rank)
  else match a, b with
    | text s, text t => decide (s ≤ t)
    | _, _ =>
      match a.toNumber?, b.toNumber? with
      | some m, some n => !n.lt m
      | _, _ => true

end Scalar

inductive EnumValue where
  | number (n : Number)
  | text (s : String)
deriving DecidableEq, Inhabited, Repr

def EnumValue.toDatum : EnumValue → Datum
  | number n => .number n
  | text s => .text s

structure EnumMember where
  name : String
  value : EnumValue
deriving DecidableEq, Inhabited, Repr

structure Field where
  name : String
  type : NodeId
  optional : Bool := false
  readonly : Bool := false
  tags : List Tag := []
  location : Option SourceLocation := none
deriving DecidableEq, Inhabited

/-- The field whose literal types tell the members of a union apart, with its value in each member
in their order. -/
structure Discriminant where
  property : String
  values : List Scalar
deriving DecidableEq, Inhabited, Repr

inductive Shape where
  | primitive (name : Primitive)
  | literal (kind : LiteralKind) (value : Scalar)
  | array (element : NodeId)
  | tuple (elements : List NodeId)
  | object (fields : List Field)
  | union (members : List NodeId) (discriminant : Option Discriminant)
  | intersection (members : List NodeId)
  | enum (members : List EnumMember)
  | reference (target : NodeId) (symbol : String)
  | recursiveRef (target : NodeId) (symbol : String)
  | unknown (reason : String) (cause : UnknownCause)
deriving DecidableEq, Inhabited

namespace Shape

def kind : Shape → String
  | primitive _ => "primitive"
  | literal .. => "literal"
  | array _ => "array"
  | tuple _ => "tuple"
  | object _ => "object"
  | union .. => "union"
  | intersection _ => "intersection"
  | enum _ => "enum"
  | reference .. => "reference"
  | recursiveRef .. => "recursive_ref"
  | unknown .. => "unknown"

/-- The nodes that a shape is built from. The target of a recursive reference is not one. -/
def children : Shape → List NodeId
  | array e => [e]
  | tuple es => es
  | object fs => fs.map Field.type
  | union ms _ => ms
  | intersection ms => ms
  | reference t _ => [t]
  | _ => []

def recursionTarget? : Shape → Option NodeId
  | recursiveRef t _ => some t
  | _ => none

end Shape

structure Node where
  id : NodeId
  shape : Shape
  tags : List Tag := []
  location : Option SourceLocation := none
deriving DecidableEq, Inhabited

/-- Nodes by the name under which they are filed. -/
abbrev Arena := Std.ExtTreeMap NodeId Node

structure Graph where
  root : NodeId
  nodes : Arena
  symbol : String
  filePath : String
  /-- The symbols that the root declaration refers to directly. -/
  dependencies : List String := []
deriving DecidableEq

/-- A graph whose names are digests of the named algorithm. -/
structure CanonicalGraph extends Graph where
  algorithm : String := "sha256"
deriving DecidableEq

namespace Graph

instance : Inhabited Graph := ⟨{ root := "", nodes := ∅, symbol := "", filePath := "" }⟩

def node? (g : Graph) (id : NodeId) : Option Node := g.nodes[id]?

/-- The nodes that recursive references name. -/
def binders (g : Graph) : Std.ExtTreeSet NodeId :=
  Std.ExtTreeSet.ofList (g.nodes.toList.filterMap fun n => n.2.shape.recursionTarget?)

end Graph

instance : Inhabited CanonicalGraph := ⟨{ toGraph := default }⟩

end TypeAtlas
