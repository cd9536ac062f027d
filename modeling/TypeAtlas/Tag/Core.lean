import TypeAtlas.Fault
import TypeAtlas.Text.Word

/-! # Core tags

The tags with a grammar of their own: how many arguments each takes, which payloads it accepts and
what it reads from them, and which kinds of type it may annotate.
-/

namespace TypeAtlas

/-- Whether a tag takes a payload. -/
inductive Arity where
  | forbidden
  | optional
  | required
deriving DecidableEq, Inhabited, Repr

def Arity.name : Arity → String
  | forbidden => "none"
  | optional => "optional"
  | required => "required"

inductive CoreTag where
  | entity | pk | unique | index | fk | default_ | renameFrom | sqlType | decimal | check
  | version | min | max | int | minLength | maxLength | pattern | regex | format | email
  | uuid | url | description | validator | transform
deriving DecidableEq, Inhabited, Repr

/-! The shapes of payload. -/

namespace Payload

/-- One character of a class at least, and then only such. -/
def some1 (cls : Char → Bool) (cs : List Char) : Bool := !cs.isEmpty && cs.all cls

/-- The longest start of a text in a class, which must not be empty, and the rest. -/
def span1? (cls : Char → Bool) (cs : List Char) : Option (List Char) :=
  match cs.takeWhile cls with
  | [] => none
  | _ => some (cs.dropWhile cls)

/-- Names separated by commas, and perhaps `:unique`. -/
def isIndex (cs : List Char) : Bool :=
  match span1? (fun c => Text.isWord c || c == ',') cs with
  | some rest => rest.isEmpty || rest == ":unique".toList
  | none => false

def isActions (cs : List Char) : Bool :=
  match span1? Text.isWord cs with
  | some (':' :: rest) => some1 Text.isWord rest
  | _ => false

/-- A dotted name, and perhaps two actions after blanks. -/
def isForeignKey (cs : List Char) : Bool :=
  match span1? (fun c => Text.isWord c || c == '.') cs with
  | some [] => true
  | some (b :: rest) => Text.isBlank b && isActions (Text.trimStart rest)
  | none => false

/-- A word, and perhaps a version after an at sign. -/
def isRename (cs : List Char) : Bool :=
  match span1? Text.isWord cs with
  | some [] => true
  | some ('@' :: rest) => some1 (fun c => Text.isDigit c || c == '.') rest
  | _ => false

/-- Two runs of digits around a comma. -/
def isDecimal (cs : List Char) : Bool :=
  match span1? Text.isDigit cs with
  | some (',' :: rest) => some1 Text.isDigit rest
  | _ => false

/-- Three numbers with points between them, and perhaps a label after a dash. -/
def isVersion (cs : List Char) : Bool :=
  match span1? Text.isDigit cs with
  | some ('.' :: rest) =>
    match span1? Text.isDigit rest with
    | some ('.' :: rest) =>
      match span1? Text.isDigit rest with
      | some [] => true
      | some ('-' :: label) => some1 (fun c => Text.isWord c || c == '.') label
      | _ => false
    | _ => false
  | _ => false

def isUnsigned (cs : List Char) : Bool :=
  match span1? Text.isDigit cs with
  | some [] => true
  | some ('.' :: rest) => some1 Text.isDigit rest
  | _ => false

def isNumber : List Char → Bool
  | '-' :: rest => isUnsigned rest
  | cs => isUnsigned cs

/-- The integer that a run of digits stands for, unless there are too many of them. -/
def integer (digits : List Char) : Attempt Int :=
  if digits.length ≤ maxDecimalDigits then .ok (Text.digitsValue digits)
  else .error (.tooManyDigits (some digits.length))

/-- The number that a payload of digits stands for: an integer unless it has a fraction. -/
def number (cs : List Char) : Attempt Datum :=
  let (negative, body) := takeSign cs
  match Text.cut '.' body with
  | (whole, none) => (integer whole).map fun n => .int (if negative then -n else n)
  | (whole, some part) =>
    .ok (.float
      (Binary64.ofDecimal negative (Text.digitsValue (whole ++ part)) (-(part.length : Int))))

def action (cs : List Char) : String :=
  let word := String.ofList ((Text.trim cs).map Char.toLower)
  if word = "cascade" then "cascade"
  else if word = "restrict" then "restrict"
  else if word = "setnull" || word = "set null" then "set null"
  else "no action"

/-- An action under its label, unless it is empty. -/
def actionField (label : String) (cs : List Char) : List (String × Datum) :=
  if cs.isEmpty then [] else [(label, .text (action cs))]

def readIndex (cs : List Char) : List (String × Datum) :=
  let (names, flag) := Text.cut ':' cs
  let fields := ((Text.splitAt ',' names).map Text.trim).filter (· ≠ [])
  [("fields", .texts (fields.map String.ofList)),
    ("unique", .bool (Text.trim (flag.getD []) == "unique".toList))]

def readForeignKey (cs : List Char) : Option (List (String × Datum)) :=
  let (path, actions) := Text.cut ' ' cs
  let (target, field) := Text.cut '.' path
  let field := field.getD []
  if target.isEmpty || field.isEmpty then none
  else
    let (onDelete, onUpdate) := Text.cut ':' (Text.trim (actions.getD []))
    some ([("target", .text (String.ofList target)), ("field", .text (String.ofList field))] ++
      actionField "onDelete" onDelete ++ actionField "onUpdate" (onUpdate.getD []))

def readRename (cs : List Char) : List (String × Datum) :=
  let (old, version) := Text.cut '@' cs
  ("oldName", .text (String.ofList old)) ::
    match version with
    | some (c :: rest) => [("version", .text (String.ofList (Text.trim (c :: rest))))]
    | _ => []

def readDecimal (cs : List Char) : Attempt (List (String × Datum)) := do
  let (precision, scale) := Text.cut ',' cs
  return [("precision", .int (← integer precision)), ("scale", .int (← integer (scale.getD [])))]

end Payload

namespace CoreTag

def all : List CoreTag := [
  entity, pk, unique, index, fk, default_, renameFrom, sqlType, decimal, check, version, min, max,
  int, minLength, maxLength, pattern, regex, format, email, uuid, url, description, validator,
  transform]

def name : CoreTag → String
  | entity => "entity"
  | pk => "pk"
  | unique => "unique"
  | index => "index"
  | fk => "fk"
  | default_ => "default"
  | renameFrom => "renameFrom"
  | sqlType => "sqlType"
  | decimal => "decimal"
  | check => "check"
  | version => "version"
  | min => "min"
  | max => "max"
  | int => "int"
  | minLength => "minLength"
  | maxLength => "maxLength"
  | pattern => "pattern"
  | regex => "regex"
  | format => "format"
  | email => "email"
  | uuid => "uuid"
  | url => "url"
  | description => "description"
  | validator => "validator"
  | transform => "transform"

def ofName? (s : String) : Option CoreTag := all.find? fun t => t.name == s

def arity : CoreTag → Arity
  | entity => .optional
  | pk | unique | int | email | uuid | url => .forbidden
  | _ => .required

/-- Whether a payload that is not empty has the right shape. -/
def accepts (t : CoreTag) (payload : List Char) : Bool :=
  match t with
  | index => Payload.isIndex payload
  | fk => Payload.isForeignKey payload
  | renameFrom => Payload.isRename payload
  | decimal => Payload.isDecimal payload
  | version => Payload.isVersion payload
  | min | max => Payload.isNumber payload
  | minLength | maxLength => Payload.some1 Text.isDigit payload
  | format => Payload.some1 (fun c => Text.isWord c || c == '-') payload
  | validator | transform => Payload.some1 Text.isWord payload
  | _ => true

/-- What the tag reads from a payload of the right shape, which may still say too little. -/
def read (t : CoreTag) (payload : List Char) : Attempt (Option (List (String × Datum))) :=
  let whole (label : String) : Attempt (Option (List (String × Datum))) :=
    .ok (some [(label, .text (String.ofList payload))])
  match t with
  | entity => if payload.isEmpty then .ok (some []) else whole "name"
  | pk | unique | int | email | uuid | url => .ok (some [])
  | index => .ok (some (Payload.readIndex payload))
  | fk => .ok (Payload.readForeignKey payload)
  | default_ => whole "value"
  | renameFrom => .ok (some (Payload.readRename payload))
  | sqlType => whole "type"
  | decimal => (Payload.readDecimal payload).map some
  | check => whole "expression"
  | version => whole "semver"
  | min | max | minLength | maxLength =>
    (Payload.number payload).map fun value => some [("value", value)]
  | pattern | regex => whole "pattern"
  | format => whole "format"
  | description => whole "text"
  | validator | transform => whole "name"

end CoreTag

/-! ## Tags and types -/

namespace CoreTag

def scalarKinds : List String := ["string", "number", "boolean", "bigint"]
def numericKinds : List String := ["number", "bigint"]
def textKinds : List String := ["string", "array"]

/-- The kinds that a tag is restricted to. -/
def targets? : CoreTag → Option (List String)
  | pk | unique | default_ | sqlType | decimal | fk => some scalarKinds
  | min | max | int => some numericKinds
  | minLength | maxLength | pattern | regex | format | email | uuid | url => some textKinds
  | index => some ["object"]
  | _ => none

end CoreTag

/-- Whether the tag of this name may annotate a type of these kinds. -/
def tagFits (name : String) (kinds : List String) : Bool :=
  match (CoreTag.ofName? name).bind CoreTag.targets? with
  | none => true
  | some allowed => kinds.all allowed.contains

end TypeAtlas
