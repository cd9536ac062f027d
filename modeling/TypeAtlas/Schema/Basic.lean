import TypeAtlas.Datum
import TypeAtlas.Number.Reader

/-! # Record schemas

Reading typed records from data. A reading collects every fault of a record, each with the path to
where it stands, instead of stopping at the first. Records have no fields beyond those they name.
-/

namespace TypeAtlas

/-- What can be wrong with a value. -/
inductive Issue.Kind where
  | missing | extraForbidden
  | stringType | intType | intParsing | intFromFloat | intParsingSize | finiteNumber
  | floatType | floatParsing | boolType | boolParsing
  | listType | tupleType | dictType | modelType | modelAttributesType
  | literalError | greaterThan | unionTagNotFound | unionTagInvalid
  /-- A value of the right type that a rule of the field refuses. -/
  | valueError (text : String)
deriving DecidableEq, Inhabited, Repr

structure Issue where
  path : List String
  kind : Issue.Kind
deriving DecidableEq, Inhabited, Repr

/-- The result of a reading: a value, or all faults that were found. -/
inductive Checked (α : Type) where
  | ok (value : α)
  | bad (issues : List Issue)
deriving Inhabited

namespace Checked

variable {α β : Type}

def map (f : α → β) : Checked α → Checked β
  | ok a => ok (f a)
  | bad is => bad is

/-- Both readings, with the faults of both. -/
def seq (f : Checked (α → β)) (x : Unit → Checked α) : Checked β :=
  match f, x () with
  | ok f, ok a => ok (f a)
  | ok _, bad is => bad is
  | bad is, ok _ => bad is
  | bad is, bad js => bad (is ++ js)

instance : Applicative Checked where
  pure := ok
  map := map
  seq := seq

/-- A further reading of the value; its faults stand for themselves. -/
def andThen (x : Checked α) (f : α → Checked β) : Checked β :=
  match x with
  | ok a => f a
  | bad is => bad is

def fault (kind : Issue.Kind) : Checked α := bad [⟨[], kind⟩]

/-- The faults of a part, seen from the whole. -/
def within (step : String) : Checked α → Checked α
  | ok a => ok a
  | bad is => bad (is.map fun i => ⟨step :: i.path, i.kind⟩)

def toExcept : Checked α → Except (List Issue) α
  | ok a => .ok a
  | bad is => .error is

/-- Every reading of a list, with the position of each in the paths. -/
def collect (read : Datum → Checked α) : Nat → List Datum → Checked (List α)
  | _, [] => ok []
  | i, d :: ds => List.cons <$> within (toString i) (read d) <*> collect read (i + 1) ds

/-- Every reading of a record's values, with the name of each in the paths. -/
def collectFields (read : Datum → Checked α) :
    List (String × Datum) → Checked (List (String × α))
  | [] => ok []
  | (k, d) :: ds =>
    (fun a rest => (k, a) :: rest) <$> within k (read d) <*> collectFields read ds

end Checked

/-! ## Readers -/

namespace Schema

variable {α : Type}

def text : Datum → Checked String
  | .text s => .ok s
  | _ => .fault .stringType

/-- An integer as text: a sign, digits in groups, and perhaps a fraction of zeros. -/
def integerText? (s : String) : Option Int := do
  let cs := Text.trim s.toList
  let (negative, body) := takeSign cs
  let (whole, part) := Text.cut '.' body
  let digits ← joinDigitGroups? whole
  if digits.isEmpty || !digits.all Char.isDigit then none
  else if !((part.getD []).all (· == '0')) then none
  else
    let n : Int := Text.digitsValue digits
    some (if negative then -n else n)

def int : Datum → Checked Int
  | .number (.int n) => .ok n
  | .bool b => .ok (if b then 1 else 0)
  | .number (.float x) =>
    if x.isFinite then
      match x.toInt? with
      | some n => if n.natAbs < 0x8000000000000000 then .ok n else .fault .intParsingSize
      | none => .fault .intFromFloat
    else .fault .finiteNumber
  | .text s =>
    match integerText? s with
    | some n => if (Datum.number (.int n)).isBrief then .ok n else .fault .intParsingSize
    | none => .fault .intParsing
  | _ => .fault .intType

def float : Datum → Checked Binary64
  | .number n => .ok n.toBinary64
  | .bool b => .ok (Binary64.ofInt (if b then 1 else 0))
  | .text s =>
    match readFloat? s.toList with
    | some x => .ok x
    | none => .fault .floatParsing
  | _ => .fault .floatType

def boolText? (s : String) : Option Bool :=
  let s := Text.small s
  if ["0", "f", "n", "no", "off", "false"].contains s then some false
  else if ["1", "t", "y", "yes", "on", "true"].contains s then some true
  else none

def bool : Datum → Checked Bool
  | .bool b => .ok b
  | .text s =>
    match boolText? s with
    | some b => .ok b
    | none => .fault .boolParsing
  | .number n =>
    match n.fold with
    | .int 0 => .ok false
    | .int 1 => .ok true
    | .int n =>
      if -0x8000000000000000 ≤ n && n < 0x8000000000000000 then .fault .boolParsing
      else .fault .boolType
    | .float _ => .fault .boolType
  | _ => .fault .boolType

def nullable (read : Datum → Checked α) : Datum → Checked (Option α)
  | .null => .ok none
  | d => (read d).map some

def list (read : Datum → Checked α) : Datum → Checked (List α)
  | .list ds => Checked.collect read 0 ds
  | _ => .fault .listType

/-- A sequence of a record that is not changed once read. -/
def tuple (read : Datum → Checked α) : Datum → Checked (List α)
  | .list ds => Checked.collect read 0 ds
  | _ => .fault .tupleType

def dict (read : Datum → Checked α) : Datum → Checked (List (String × α))
  | .record fs => Checked.collectFields read fs
  | _ => .fault .dictType

def anyRecord : Datum → Checked (List (String × Datum))
  | .record fs => .ok fs
  | _ => .fault .dictType

def oneOf (ofName? : String → Option α) : Datum → Checked α
  | .text s =>
    match ofName? s with
    | some a => .ok a
    | none => .fault .literalError
  | _ => .fault .literalError

def required (fields : List (String × Datum)) (name : String) (read : Datum → Checked α) :
    Checked α :=
  match Datum.field? fields name with
  | some d => (read d).within name
  | none => (Checked.fault .missing).within name

def withDefault (fields : List (String × Datum)) (name : String) (read : Datum → Checked α)
    (default : α) : Checked α :=
  match Datum.field? fields name with
  | some d => (read d).within name
  | none => .ok default

/-- The faults of fields that no one named. -/
def noOthers (known : List String) (fields : List (String × Datum)) : Checked Unit :=
  match fields.filter fun f => !known.contains f.1 with
  | [] => .ok ()
  | extra => .bad (extra.map fun f => ⟨[f.1], .extraForbidden⟩)

/-- A record with the given fields and no others. -/
def record (known : List String) (read : List (String × Datum) → Checked α) : Datum → Checked α
  | .record fs => (fun a (_ : Unit) => a) <$> read fs <*> noOthers known fs
  | _ => .fault .modelType

end Schema

end TypeAtlas
