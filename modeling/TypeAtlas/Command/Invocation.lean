import TypeAtlas.Command.Arguments
import TypeAtlas.Diagnostic.Report
import TypeAtlas.Logging
import TypeAtlas.Number.Reader

/-! # Invocations

What a command line asks for: an operation on a repository, how much of the log is shown, and how
diagnostics are reported.
-/

namespace TypeAtlas

inductive Operation where
  | extract (file symbol : String) (useCache : Bool) (timeout : Option Binary64)
  | index (cacheDir : Option String)
  | validate (cacheDir : Option String)
  | verify (cacheDir : Option String)
deriving DecidableEq, Inhabited, Repr

structure Invocation where
  operation : Operation
  root : String := "."
  /-- The level that is named on the command line. -/
  logLevel : Option LogLevel := none
  report : ReportMode := .pretty
deriving DecidableEq, Inhabited, Repr

namespace Invocation

/-- The arguments before the name of an operation. -/
structure Common where
  logLevel : Option LogLevel := none
  report : ReportMode := .pretty
  misused : Bool := false

def Common.form : ArgumentForm Common where
  options := ArgumentForm.helpOptions ++ [
    ("--log-level", .setting fun value c =>
      (LogLevel.ofName? (Text.capitals value)).map fun l => { c with logLevel := some l }),
    ("--format", .setting fun value c =>
      (ReportMode.ofName? value).map fun m => { c with report := m })]
  operand := none
  unknown := fun c => { c with misused := true }

/-- The arguments after the name of an operation. -/
structure Particular where
  operands : List String := []
  root : String := "."
  useCache : Bool := true
  timeout : Option Binary64 := none
  cacheDir : Option String := none
  misused : Bool := false

namespace Particular

/-- A form with some options; the operands are collected. -/
def formWith (options : List (String × OptionEffect Particular)) : ArgumentForm Particular where
  options := ArgumentForm.helpOptions ++ options
  operand := some fun value p => { p with operands := p.operands ++ [value] }
  unknown := fun p => { p with misused := true }

def extractForm : ArgumentForm Particular := formWith [
  ("--root", .setting fun value p => some { p with root := value }),
  ("--no-cache", .switch fun p => { p with useCache := false }),
  ("--timeout", .setting fun value p =>
    (readFloat? value.toList).map fun x => { p with timeout := some x })]

def cacheForm : ArgumentForm Particular := formWith [
  ("--cache-dir", .setting fun value p => some { p with cacheDir := some value })]

def extract? (p : Particular) : Option (String × Operation) :=
  match p.operands with
  | [file, symbol] => some (p.root, .extract file symbol p.useCache p.timeout)
  | _ => none

def onCache? (operation : Option String → Operation) (p : Particular) :
    Option (String × Operation) :=
  match p.operands with
  | [] => some (p.root, operation p.cacheDir)
  | [root] => some (root, operation p.cacheDir)
  | _ => none

end Particular

def operations :
    List (String × ArgumentForm Particular × (Particular → Option (String × Operation))) := [
  ("extract", Particular.extractForm, Particular.extract?),
  ("index", Particular.cacheForm, Particular.onCache? .index),
  ("validate", Particular.cacheForm, Particular.onCache? .validate),
  ("verify", Particular.cacheForm, Particular.onCache? .verify)]

def read (args : List String) : Except UsageNote Invocation := do
  let (common, rest) ← Common.form.read {} args
  match rest with
  | [] => throw .misuse
  | name :: rest =>
    match operations.find? fun o => o.1 == name with
    | none => throw .misuse
    | some (_, form, operation?) =>
      let (particular, _) ← form.read {} rest
      match operation? particular with
      | some (root, operation) =>
        if common.misused || particular.misused then throw .misuse
        else return { operation, root, logLevel := common.logLevel, report := common.report }
      | none => throw .misuse

end Invocation

end TypeAtlas
