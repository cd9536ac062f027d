import TypeAtlas.Diagnostic.Outcome
import TypeAtlas.Json.Writer

/-! # Reports

Lists of diagnostics as text. A report is sorted by severity, code and message, and then by the
whole record, so it does not depend on the order in which the diagnostics arose.
-/

namespace TypeAtlas

inductive ReportMode where
  | pretty
  | json
deriving DecidableEq, Inhabited, Repr

def ReportMode.ofName? (s : String) : Option ReportMode :=
  if s = "pretty" then some .pretty else if s = "json" then some .json else none

namespace Report

/-- What diagnostics are sorted by; `record` is the compact text of the whole record. -/
structure Key where
  rank : Nat
  code : String
  message : String
  record : String
deriving DecidableEq

def Key.compare (a b : Key) : Ordering :=
  (Ord.compare a.rank b.rank).then
    ((Ord.compare a.code b.code).then
      ((Ord.compare a.message b.message).then (Ord.compare a.record b.record)))

def key (d : Diagnostic) : Except Json.WriteError Key := do
  return ⟨d.category.rank, d.code, d.message, ← Json.compact d.toDatum⟩

def sort (ds : List Diagnostic) : Except Json.WriteError (List Diagnostic) := do
  let keyed ← ds.mapM fun d => do return (← key d, d)
  return (keyed.mergeSort fun a b => (a.1.compare b.1).isLE).map Prod.snd

def block (d : Diagnostic) : String :=
  let place := (d.location.map Place.render).getD ""
  let context := (d.context.map Context.render).getD ""
  let detail := Text.join " " ([place, context].filter (· != ""))
  let help := match d.helpUrl with
    | some url => if url = "" then [] else ["help: " ++ url]
    | none => []
  Text.join "\n"
    ([d.category.name ++ " " ++ d.code ++ " " ++ d.message] ++
      (if detail = "" then [] else ["  " ++ detail]) ++ help)

def format (mode : ReportMode) (ds : List Diagnostic) : Except Json.WriteError String := do
  let sorted ← sort ds
  match mode with
  | .pretty => return Text.join "\n\n" (sorted.map block)
  | .json => Json.indented (.list (sorted.map Diagnostic.toDatum))

end Report

end TypeAtlas
