import TypeAtlas.Text.Parts

/-! # Log lines

Progress messages, each from a named part of the program. A line shows its time, level, origin and
the run that it belongs to; lines below the chosen level are not shown.
-/

namespace TypeAtlas

inductive LogLevel where
  | debug
  | info
  | warning
  | error
deriving DecidableEq, Inhabited, Repr

namespace LogLevel

def name : LogLevel → String
  | debug => "DEBUG"
  | info => "INFO"
  | warning => "WARNING"
  | error => "ERROR"

def weight : LogLevel → Nat
  | debug => 10
  | info => 20
  | warning => 30
  | error => 40

def all : List LogLevel := [debug, info, warning, error]

def ofName? (s : String) : Option LogLevel := all.find? fun l => l.name == s

end LogLevel

namespace Logging

/-- Further names by which a threshold can be chosen. -/
def furtherThresholds : List (String × Nat) :=
  [("CRITICAL", 50), ("FATAL", 50), ("WARN", 30), ("NOTSET", 0)]

/-- The weight below which lines are not shown. A name that is not known stands for warnings. -/
def threshold (name : String) : Nat :=
  let name := Text.capitals name
  match LogLevel.ofName? name with
  | some l => l.weight
  | none => ((furtherThresholds.find? fun t => t.1 == name).map Prod.snd).getD
      LogLevel.warning.weight

def programName : String := "typeir"

/-- The full name of an origin, which starts with the program's. -/
def originName (name : String) : String :=
  if name = programName || (programName ++ ".").isPrefixOf name then name
  else programName ++ "." ++ name

def runName (id : Option String) : String :=
  match id with
  | none => "-"
  | some s => if s = "" then "-" else s

end Logging

structure LogLine where
  level : LogLevel
  origin : String
  message : String
deriving DecidableEq, Inhabited, Repr

namespace LogLine

def render (l : LogLine) (time run : String) : String :=
  let level := l.level.name
  let padding := String.ofList (List.replicate (8 - level.length) ' ')
  time ++ " | " ++ level ++ padding ++ " | " ++ Logging.originName l.origin ++ " | run=" ++ run ++
    " | " ++ l.message

def shownAt (l : LogLine) (threshold : Nat) : Bool := decide (threshold ≤ l.level.weight)

end LogLine

end TypeAtlas
