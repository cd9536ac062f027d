import TypeAtlas.Description.Basic

/-! # Descriptions as records

The record form of descriptions, in which they are exchanged. A record with a field `$def` carries
that label, and a record whose only field is `$use` stands for the one with the label, even inside
itself.
-/

namespace TypeAtlas.Description

/-- A part of a record. Records are named by their place in the arena. -/
inductive Part where
  | plain (d : Datum)
  | many (parts : List Part)
  | one (id : DescriptionId) (written : Datum)
deriving Inhabited

namespace Part

mutual

def toDatum : Part → Datum
  | plain d => d
  | many ps => .list (toData ps)
  | one _ d => d

def toData : List Part → List Datum
  | [] => []
  | p :: ps => toDatum p :: toData ps

end

end Part

abbrev Cell := List (String × Part)

/-- Records placed so far. The first cell is never a record. -/
structure Placing where
  cells : Array Cell := #[[]]
  labels : List (String × DescriptionId) := []

namespace Placing

def takeLabel (fs : List (String × Datum)) : Option String × List (String × Datum) :=
  match Datum.field? fs "$def" with
  | some (.text s) => (some s, fs.filter fun f => f.1 != "$def")
  | _ => (none, fs)

/-- The label that a record refers to. -/
def use? : List (String × Datum) → Option String
  | [("$use", .text s)] => some s
  | _ => none

mutual

def place : Datum → StateM Placing Part
  | .record fs => do
    match use? fs with
    | some label =>
      let found := ((← get).labels.find? fun l => l.1 == label).map Prod.snd
      return .one (found.getD 0) (.record fs)
    | none =>
      let id := (← get).cells.size
      let (label, own) := takeLabel fs
      modify fun s => { cells := s.cells.push [], labels := match label with
        | some l => (l, id) :: s.labels
        | none => s.labels }
      let parts ← placeFields fs
      let cell := parts.filter fun p => own.any (·.1 == p.1)
      modify fun s => { s with cells := s.cells.set! id cell }
      return .one id (.record own)
  | .list ds => do return .many (← placeAll ds)
  | d => return .plain d

def placeAll : List Datum → StateM Placing (List Part)
  | [] => return []
  | d :: ds => do
    let p ← place d
    return p :: (← placeAll ds)

def placeFields : List (String × Datum) → StateM Placing (List (String × Part))
  | [] => return []
  | (k, d) :: fs => do
    let p ← place d
    return (k, p) :: (← placeFields fs)

end

end Placing

/-! ## Reading cells -/

def part? (c : Cell) (name : String) : Option Part :=
  (c.reverse.find? fun f => f.1 == name).map Prod.snd

def datum? (c : Cell) (name : String) : Option Datum := (part? c name).map Part.toDatum

def datum (c : Cell) (name : String) : Datum := (datum? c name).getD .null

def Part.child : Part → DescriptionId
  | .one id _ => id
  | _ => 0

/-- The parts of a sequence. Texts and records are sequences too, of things that are no records. -/
def sequence : Option Part → Attempt (List Part)
  | none => .ok []
  | some (.many ps) => .ok ps
  | some (.plain (.text s)) => .ok (s.toList.map fun c => .plain (.text (String.ofList [c])))
  | some (.one _ (.record fs)) => .ok (fs.map fun f => .plain (.text f.1))
  | some _ => .error .wrongType

def children (c : Cell) (name : String) : Attempt (List DescriptionId) :=
  (sequence (part? c name)).map fun ps => ps.map Part.child

def cell? (cells : Array Cell) : Part → Option Cell
  | .one id _ => if id = 0 then none else cells[id]?
  | _ => none

def readPosition (cells : Array Cell) (c : Cell) : Attempt (Option Position) :=
  match part? c "location" with
  | none => .ok none
  | some p =>
    if !p.toDatum.holds then .ok none
    else match cell? cells p with
      | none => .error .notARecord
      | some fs =>
        let coordinate (name : String) : Checked (Option Int) :=
          (Schema.nullable Schema.int (datum fs name)).within name
        match Position.mk <$> coordinate "line" <*> coordinate "column" with
        | .ok position => .ok (some position)
        | .bad issues => .error (.invalid issues)

/-- A value that is going to be shown. An integer with too many digits cannot be. -/
def showable (d : Datum) : Attempt Datum :=
  if d.isBrief then .ok d else .error (.tooManyDigits none)

def display (d : Datum) : Attempt String := (showable d).map Datum.display

def readComment (d : Datum) : Attempt (Option String) :=
  match d with
  | .text s => .ok (if s = "" then none else some s)
  | d => if d.holds then .error .wrongType else .ok none

def readField (cells : Array Cell) (p : Part) : Attempt FieldDescription := do
  match cell? cells p with
  | none => .error .wrongType
  | some c =>
    match datum? c "name" with
    | none => .error (.missingField "name")
    | some name => do
      return {
        name := ← display name
        comment := ← readComment (datum c "comment")
        type := match part? c "type" with
          | none => none
          | some (.plain .null) => none
          | some p => some p.child
        position := ← readPosition cells c
        optional := (datum c "optional").holds
        readonly := (datum c "readonly").holds }

/-- What is said of a number that no graph can hold. -/
def nonFinite (n : Number) : String := "non-finite " ++ n.text

def readMember (cells : Array Cell) (p : Part) : Attempt MemberDescription := do
  match cell? cells p with
  | none => .error .notARecord
  | some c =>
    let value? : Option EnumValue := match datum c "value" with
      | .number n => some (.number n)
      | .text s => some (.text s)
      | _ => none
    match value? with
    | none => (display (datum c "name")).map fun name => .unsupported ("member " ++ name)
    | some value =>
      let folded : Except Number EnumValue := match value with
        | .number n => if n.isFinite then .ok (.number n.fold) else .error n
        | .text s => .ok (.text s)
      match folded, datum? c "name" with
      | .error n, _ => .ok (.unsupported (nonFinite n))
      | .ok _, none => .error (.missingField "name")
      | .ok value, some name => (display name).map fun name => .constant ⟨name, value⟩

def readLiteral (c : Cell) : Attempt DescriptionShape :=
  let value := datum c "value"
  if datum c "literal_kind" = .text "bigint" then
    (display value).map fun s => .literal .bigint (.text s)
  else match value with
    | .bool b => .ok (.literal .boolean (.bool b))
    | .number n =>
      .ok (if n.isFinite then .literal .number (.number n.fold)
        else .unsupported "literal" (some (nonFinite n)))
    | .text s => .ok (.literal .string (.text s))
    | .null => .ok (.primitive .null)
    | d => (showable d).map fun d => .unsupported "literal" (some d.shown)

/-- A primitive type, unless a graph has none of that name. -/
def readPrimitive (c : Cell) : Attempt DescriptionShape :=
  match datum c "name" with
  | .text s =>
    .ok (match Primitive.ofName? s with
      | some p => .primitive p
      | none => .unsupported s none)
  | .list _ | .record _ => .error .wrongType
  | d => (display d).map fun s => .unsupported s none

def readReference (c : Cell) : Attempt DescriptionShape := do
  let name ← display (datum c "name")
  if (datum c "type_arguments").holds then return .unsupported "generic" (some name)
  else
    let file := datum c "file"
    return .reference name (if file.holds then some file.display else none)

def detail (c : Cell) : Attempt (Option String) :=
  match datum c "text" with
  | .null => .ok none
  | d => (display d).map some

def readShape (cells : Array Cell) (c : Cell) : Attempt DescriptionShape :=
  let kind := datum c "kind"
  let unrecognised : Attempt DescriptionShape := (showable kind).map fun kind =>
    .unsupported ("unrecognized description kind " ++ kind.shown) none
  match kind with
  | .text "primitive" => readPrimitive c
  | .text "literal" => readLiteral c
  | .text "template_literal" => .ok (.primitive .string)
  | .text "array" =>
    match part? c "element" with
    | none => .error (.missingField "element")
    | some p => .ok (.array p.child)
  | .text "tuple" => (children c "elements").map .tuple
  | .text "object" => do return .object ((← sequence (part? c "fields")).map (readField cells))
  | .text "union" => (children c "members").map .union
  | .text "intersection" => (children c "members").map .intersection
  | .text "enum" => do return .enum ((← sequence (part? c "members")).map (readMember cells))
  | .text "ref" => readReference c
  | .text "unsupported" => do
    let construct := datum c "construct"
    let construct ← if construct.holds then display construct else pure "unknown construct"
    return .unsupported construct (← detail c)
  | .text s =>
    if (Construct.support? s).isSome then (detail c).map (.unsupported s) else unrecognised
  | _ => unrecognised

def read (cells : Array Cell) (c : Cell) : Attempt Description := do
  let position ← readPosition cells c
  let shape ← readShape cells c
  let label := match datum c "name" with
    | .text s => some s
    | _ => none
  return { shape, label, position }

/-- The arena that placed records amount to. -/
def readAll (s : Placing) : Descriptions :=
  (s.cells.map (read s.cells)).set! 0 (.error .notARecord)

def ofDatum (d : Datum) : Descriptions × DescriptionId :=
  let (part, s) := (Placing.place d).run {}
  (readAll s, part.child)

end TypeAtlas.Description
