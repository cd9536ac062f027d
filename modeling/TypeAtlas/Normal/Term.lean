import TypeAtlas.Graph.Hash
import TypeAtlas.Fault
import TypeAtlas.Tag.Core

/-! # Terms

A node folded together with everything below it. A term carries its digest and the heights of the
enclosing recursion targets that it refers to, so terms can be compared wherever they occur.
-/

namespace TypeAtlas

/-- What the members of a union must have in common. -/
inductive Family where
  | object
  | value
  | neutral
deriving DecidableEq, Inhabited, Repr

structure FieldHead where
  name : String
  optional : Bool
  readonly : Bool
  tags : List Tag
  location : Option SourceLocation
  /-- The node from which the type was folded. -/
  rawType : NodeId
deriving DecidableEq, Inhabited

/-- What a term says, apart from the terms below it. -/
inductive TermShape where
  | primitive (name : Primitive)
  | literal (kind : LiteralKind) (value : Scalar)
  | array
  | tuple
  | object (fields : List FieldHead)
  | union (discriminant : Option Discriminant)
  | intersection
  | enum (members : List EnumMember)
  | reference (symbol : String)
  /-- With the distance from the target and the target's height, unless it is not enclosing. -/
  | recursiveRef (symbol : String) (target : NodeId) (link : Option (Nat × Nat))
  | unknown (reason : String) (cause : UnknownCause)
deriving DecidableEq, Inhabited

namespace TermShape

def kind : TermShape → String
  | primitive _ => "primitive"
  | literal .. => "literal"
  | array => "array"
  | tuple => "tuple"
  | object _ => "object"
  | union _ => "union"
  | intersection => "intersection"
  | enum _ => "enum"
  | reference _ => "reference"
  | recursiveRef .. => "recursive_ref"
  | unknown .. => "unknown"

def payload : TermShape → List (String × Datum)
  | primitive p => primitivePayload p
  | literal k v => literalPayload k v
  | object fs =>
    [("fields", .list (fs.map fun f => fieldPayload f.name f.optional f.readonly f.tags))]
  | union d => unionPayload d
  | enum ms => enumPayload ms
  | recursiveRef _ _ link => recursionPayload (link.map Prod.fst)
  | unknown r c => unknownPayload r c
  | _ => []

end TermShape

structure TermHead where
  shape : TermShape
  digest : String
  /-- The node that the term was folded from. -/
  rawId : NodeId
  tags : List Tag
  location : Option SourceLocation
  free : Heights
  /-- Whether a recursive reference below names this term. -/
  binder : Bool
  family : Family

inductive Term where
  | mk (head : TermHead) (children : List Term)

namespace Term

def head : Term → TermHead
  | mk h _ => h

def children : Term → List Term
  | mk _ cs => cs

def shape (t : Term) : TermShape := t.head.shape
def digest (t : Term) : String := t.head.digest
def free (t : Term) : Heights := t.head.free
def binder (t : Term) : Bool := t.head.binder
def family (t : Term) : Family := t.head.family

instance : Inhabited Term :=
  ⟨mk ⟨.array, "", "", [], none, ∅, false, .neutral⟩ []⟩

def familyOf (shape : TermShape) (below : List Family) : Family :=
  match shape with
  | .primitive p => if p.isNeutral then .neutral else .value
  | .literal .. | .enum _ | .array | .tuple => .value
  | .object _ | .intersection => .object
  | .reference _ => below.headD .neutral
  | .union _ => (below.find? (· != .neutral)).getD .neutral
  | .recursiveRef .. | .unknown .. => .neutral

/-- The heights that terms refer to together. -/
def freeOf (ts : List Term) : Heights := ts.foldl (fun hs t => hs ∪ t.free) ∅

/-- A term over the given ones. Recursive references are the only ones to refer to a height of
their own. -/
def make (digester : Digester) (a : Algorithm) (shape : TermShape) (rawId : NodeId)
    (children : List Term) (tags : List Tag) (location : Option SourceLocation) :
    Except Json.WriteError Term := do
  let digest ← digester.node a shape.kind (sharedPayload shape.payload tags false)
    (children.map Term.digest)
  let free := match shape with
    | .recursiveRef _ _ (some (_, height)) => Std.ExtTreeSet.ofList [height]
    | _ => freeOf children
  return mk ⟨shape, digest, rawId, tags, location, free, false,
    familyOf shape (children.map Term.family)⟩ children

/-- The term as the target at a height, to which it no longer refers from outside. -/
def asTarget (digester : Digester) (a : Algorithm) (t : Term) (height : Nat) :
    Except Json.WriteError Term := do
  let digest ← digester.node a t.shape.kind (sharedPayload t.shape.payload t.head.tags true)
    (t.children.map Term.digest)
  return mk { t.head with digest, binder := true, free := t.free.erase height } t.children

def dereference : Term → Term
  | mk h cs =>
    match h.shape, cs with
    | .reference _, c :: _ => dereference c
    | _, _ => mk h cs

/-- The term that references lead to, as long as they are not recursion targets. -/
def dereferenceFree : Term → Term
  | mk h cs =>
    match h.shape, h.binder, cs with
    | .reference _, false, c :: _ => dereferenceFree c
    | _, _, _ => mk h cs

def fields? (t : Term) : Option (List (FieldHead × Term)) :=
  match t.shape with
  | .object heads => some (heads.zip t.children)
  | _ => none

/-- The fields of the object that a member of a composite amounts to. -/
def objectBody? (t : Term) : Option (List (FieldHead × Term)) :=
  let body := t.dereferenceFree
  if body.binder then none else body.fields?

/-- A literal with the node that it was folded from. -/
structure Literal where
  kind : LiteralKind
  value : Scalar
  node : NodeId
deriving DecidableEq, Inhabited

def requiredLiteral? (f : FieldHead × Term) : Option Literal :=
  let t := f.2.dereferenceFree
  match f.1.optional, t.shape with
  | false, .literal kind value => some ⟨kind, value, t.head.rawId⟩
  | _, _ => none

def addKind (kinds : List String) (kind : String) : List String :=
  if kinds.contains kind then kinds else kinds ++ [kind]

/-- Null goes along with any other kind. -/
def dropNull (kinds : List String) : List String :=
  if 1 < kinds.length then kinds.filter (· != "null") else kinds

mutual

/-- The kinds of value that a type has, unless it cannot be classified. -/
def kinds? : Term → Option (List String)
  | mk h cs =>
    match h.shape with
    | .reference _ => headKinds? cs
    | .primitive p => some [if p.isNeutral then "null" else p.name]
    | .literal k _ => some [k.name]
    | .enum ms => some (ms.foldl (fun ks m => addKind ks (match m.value with
        | .text _ => "string"
        | .number _ => "number")) [])
    | .array | .tuple | .object _ => some [h.shape.kind]
    | .union _ => (allKinds? cs).map dropNull
    | _ => none

def headKinds? : List Term → Option (List String)
  | [] => none
  | t :: _ => kinds? t

def allKinds? : List Term → Option (List String)
  | [] => some []
  | t :: ts =>
    match kinds? t, allKinds? ts with
    | some ks, some ls => some (ks.foldl addKind ls)
    | _, _ => none

end

end Term

end TypeAtlas
