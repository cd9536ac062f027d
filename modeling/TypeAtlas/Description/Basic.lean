import TypeAtlas.Construct
import TypeAtlas.Fault
import TypeAtlas.Graph.Basic

/-! # Type descriptions

What a declaration says about a type before references are followed. Descriptions are kept in an
arena, since a part may occur in several places and even inside itself. A part that is not formed
as it should be holds the fault that arises when it is reached.
-/

namespace TypeAtlas

abbrev DescriptionId := Nat

structure Position where
  line : Option Int := none
  column : Option Int := none
deriving DecidableEq, Inhabited, Repr

structure FieldDescription where
  name : String
  type : Option DescriptionId
  optional : Bool := false
  readonly : Bool := false
  comment : Option String := none
  position : Option Position := none
deriving Inhabited

/-- A member of an enum, which has a name and a constant value or is left out of graphs. -/
inductive MemberDescription where
  | constant (member : EnumMember)
  | unsupported (detail : String)
deriving DecidableEq, Inhabited, Repr

inductive DescriptionShape where
  | primitive (name : Primitive)
  | literal (kind : LiteralKind) (value : Scalar)
  | array (element : DescriptionId)
  | tuple (elements : List DescriptionId)
  | object (fields : List (Attempt FieldDescription))
  | union (members : List DescriptionId)
  | intersection (members : List DescriptionId)
  | enum (members : List (Attempt MemberDescription))
  /-- The name of a declaration, in the given file or in the one at hand. -/
  | reference (name : String) (file : Option String)
  | unsupported (construct : String) (detail : Option String)
deriving Inhabited

structure Description where
  shape : DescriptionShape
  /-- The name that an anonymous part goes by. -/
  label : Option String := none
  position : Option Position := none
deriving Inhabited

abbrev Descriptions := Array (Attempt Description)

def Descriptions.get (ds : Descriptions) (id : DescriptionId) : Attempt Description :=
  (ds[id]?).getD (.error .notARecord)

end TypeAtlas
