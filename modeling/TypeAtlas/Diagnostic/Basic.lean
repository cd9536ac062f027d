import TypeAtlas.Datum

/-! # Diagnostics

What a pass reports about a declaration: a code with its severity and message, and where it arose.
-/

namespace TypeAtlas

inductive Category where
  | error
  | warning
  | info
  /-- A severity that this catalogue does not know, kept as found in a recorded diagnostic. -/
  | other (name : String)
deriving DecidableEq, Inhabited, Repr

namespace Category

def name : Category → String
  | error => "error"
  | warning => "warning"
  | info => "info"
  | other s => s

def ofName (s : String) : Category :=
  if s = "error" then error
  else if s = "warning" then warning
  else if s = "info" then info
  else other s

def rank : Category → Nat
  | error => 0
  | warning => 1
  | info => 2
  | other _ => 3

end Category

structure Place where
  filePath : Option String := none
  line : Option Int := none
  column : Option Int := none
  symbol : Option String := none
deriving DecidableEq, Inhabited, Repr

namespace Place

/-- The position as `file:line:column`, as far as it is known. -/
def render (p : Place) : String :=
  match p.filePath with
  | none => ""
  | some file =>
    match p.line with
    | some line =>
      if line = 0 then file
      else
        let upToLine := file ++ ":" ++ writeInt line
        match p.column with
        | some column => if column = 0 then upToLine else upToLine ++ ":" ++ writeInt column
        | none => upToLine
    | none => file

end Place

structure Context where
  entity : Option String := none
  field : Option String := none
  hint : Option String := none
deriving DecidableEq, Inhabited, Repr

namespace Context

/-- A labelled part of a context; what is absent or empty is left out. -/
def part (label : String) : Option String → List String
  | some s => if s = "" then [] else [label ++ s]
  | none => []

def render (c : Context) : String :=
  Text.join " " (part "entity: " c.entity ++ part "field: " c.field ++ part "" c.hint)

end Context

structure Diagnostic where
  code : String
  category : Category
  message : String
  helpUrl : Option String := none
  location : Option Place := none
  context : Option Context := none
deriving DecidableEq, Inhabited, Repr

namespace Diagnostic

def isError (d : Diagnostic) : Bool := d.category == .error

end Diagnostic

/-- A field of a record, left out when the value is absent. -/
def Datum.fieldIf {α : Type} (name : String) (f : α → Datum) : Option α → List (String × Datum)
  | none => []
  | some a => [(name, f a)]

def Datum.textField? (fields : List (String × Datum)) (name : String) : Option String :=
  match field? fields name with
  | none => none
  | some .null => none
  | some d => some d.display

def Datum.intField? (fields : List (String × Datum)) (name : String) : Option Int :=
  match field? fields name with
  | some (.number (.int n)) => some n
  | _ => none

namespace Place

def toFields (p : Place) : List (String × Datum) :=
  Datum.fieldIf "filePath" .text p.filePath ++ Datum.fieldIf "line" .int p.line ++
    Datum.fieldIf "column" .int p.column ++ Datum.fieldIf "symbol" .text p.symbol

def ofFields (fields : List (String × Datum)) : Place where
  filePath := Datum.textField? fields "filePath"
  line := Datum.intField? fields "line"
  column := Datum.intField? fields "column"
  symbol := Datum.textField? fields "symbol"

end Place

namespace Context

def toFields (c : Context) : List (String × Datum) :=
  Datum.fieldIf "entity" .text c.entity ++ Datum.fieldIf "field" .text c.field ++
    Datum.fieldIf "hint" .text c.hint

def ofFields (fields : List (String × Datum)) : Context where
  entity := Datum.textField? fields "entity"
  field := Datum.textField? fields "field"
  hint := Datum.textField? fields "hint"

end Context

namespace Diagnostic

def toFields (d : Diagnostic) : List (String × Datum) :=
  [("code", .text d.code), ("category", .text d.category.name), ("message", .text d.message)] ++
    Datum.fieldIf "helpUrl" .text d.helpUrl ++
    Datum.fieldIf "location" (fun p => .record p.toFields) d.location ++
    Datum.fieldIf "context" (fun c => .record c.toFields) d.context

def toDatum (d : Diagnostic) : Datum := .record d.toFields

/-- The fields of a record that is not empty. -/
def part? (fields : List (String × Datum)) (name : String) : Option (List (String × Datum)) :=
  match Datum.field? fields name with
  | some (.record (f :: fs)) => some (f :: fs)
  | _ => none

/-- The diagnostic that a record describes; the error is the name of a field that is missing. An
empty location or context counts as none. -/
def ofFields (fields : List (String × Datum)) : Except String Diagnostic := do
  let required (name : String) : Except String String :=
    match Datum.field? fields name with
    | some d => .ok d.display
    | none => .error name
  return {
    code := ← required "code"
    category := Category.ofName (← required "category")
    message := ← required "message"
    helpUrl := Datum.textField? fields "helpUrl"
    location := (part? fields "location").map Place.ofFields
    context := (part? fields "context").map Context.ofFields }

end Diagnostic

end TypeAtlas
