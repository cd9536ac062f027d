import TypeAtlas.Text.Parts
import TypeAtlas.Text.Word

/-! # Arguments

The arguments of a command are options, their values and operands, in any order. A long option may
be shortened as long as it is the only one that starts so, and its value may be attached with `=`.
After `--` everything is an operand.
-/

namespace TypeAtlas

/-- How the reading of arguments ends when there is nothing to do. -/
inductive UsageNote where
  | help
  | misuse
deriving DecidableEq, Inhabited, Repr

/-- What an option does to the settings that were read so far. A value may not be accepted. -/
inductive OptionEffect (σ : Type) where
  | help
  | switch (change : σ → σ)
  | setting (change : String → σ → Option σ)

structure ArgumentForm (σ : Type) where
  options : List (String × OptionEffect σ)
  /-- What an operand does. Without it the first operand ends the arguments of the command. -/
  operand : Option (String → σ → σ)
  /-- What an option does that the command does not have. -/
  unknown : σ → σ

inductive ArgumentKind (σ : Type) where
  | operand
  | separator
  | option (effect : OptionEffect σ) (attached : Option String)
  | unknown
  /-- The beginning of several options. -/
  | ambiguous

namespace ArgumentKind

variable {σ : Type}

def isOperand : ArgumentKind σ → Bool
  | operand => true
  | _ => false

end ArgumentKind

namespace ArgumentForm

variable {σ : Type}

def helpOptions : List (String × OptionEffect σ) := [("-h", .help), ("--help", .help)]

/-- Whether a text is a minus sign before a number, which makes it an operand. -/
def isNegativeNumber (s : String) : Bool :=
  match s.toList with
  | '-' :: cs =>
    let digits := cs.dropWhile Text.isDigit
    match digits with
    | [] => !cs.isEmpty
    | '.' :: places => !places.isEmpty && places.all Text.isDigit
    | _ => false
  | _ => false

/-- The options that a name can stand for: the one of this name, or all long ones that start with
it. -/
def named (f : ArgumentForm σ) (name : String) : List (OptionEffect σ) :=
  match f.options.find? fun o => o.1 == name with
  | some o => [o.2]
  | none =>
    if "--".isPrefixOf name then (f.options.filter fun o => name.isPrefixOf o.1).map Prod.snd
    else []

/-- The short option that starts an argument. Further letters can follow it. -/
def lettered? (f : ArgumentForm σ) (arg : String) : Option (OptionEffect σ) :=
  (f.options.find? fun o => o.1.length == 2 && o.1.isPrefixOf arg).map Prod.snd

def kind (f : ArgumentForm σ) (arg : String) : ArgumentKind σ :=
  if arg = "--" then .separator
  else if !"-".isPrefixOf arg || arg = "-" then .operand
  else
    let (name, attached) := Text.cut '=' arg.toList
    match f.named (String.ofList name) with
    | [effect] => .option effect (attached.map String.ofList)
    | _ :: _ => .ambiguous
    | [] =>
      match f.lettered? arg with
      | some effect => .option effect none
      | none =>
        if isNegativeNumber arg || arg.contains ' ' then .operand else .unknown

/-- Reads arguments one by one. The result holds what follows the first operand, that included, if
it ends them. -/
def read (f : ArgumentForm σ) : σ → List String → Except UsageNote (σ × List String)
  | s, [] => .ok (s, [])
  | s, arg :: rest =>
    match f.kind arg with
    | .separator =>
      match f.operand with
      | some take => .ok (rest.foldl (fun s x => take x s) s, [])
      | none => .error .misuse
    | .operand =>
      match f.operand with
      | some take => read f (take arg s) rest
      | none => .ok (s, arg :: rest)
    | .unknown => read f (f.unknown s) rest
    | .ambiguous => .error .misuse
    | .option .help none => .error .help
    | .option (.switch change) none => read f (change s) rest
    | .option (.setting change) (some value) =>
      match change value s with
      | some s => read f s rest
      | none => .error .misuse
    | .option (.setting change) none =>
      match rest with
      | [] => .error .misuse
      | value :: rest =>
        if (f.kind value).isOperand then
          match change value s with
          | some s => read f s rest
          | none => .error .misuse
        else .error .misuse
    | .option _ (some _) => .error .misuse

end ArgumentForm

end TypeAtlas
