import TypeAtlas.Number.Layout

/-! # Numbers

Integers of any size and floating-point numbers, compared by their exact values.
-/

namespace TypeAtlas

/-- The greatest number of decimal digits that an integer is read from or shown with. -/
def maxDecimalDigits : Nat := 4300

inductive Number where
  | int (n : Int)
  | float (x : Binary64)
deriving DecidableEq, Inhabited, Repr

namespace Number

def toBinary64 : Number → Binary64
  | .int n => Binary64.ofInt n
  | .float x => x

def isFinite : Number → Bool
  | .int _ => true
  | .float x => x.isFinite

/-- Integers add exactly; any other sum is rounded. -/
def add : Number → Number → Number
  | .int a, .int b => .int (a + b)
  | a, b => .float (a.toBinary64.add b.toBinary64)

def fraction? : Number → Option Binary64.Fraction
  | .int n => some ⟨n, 1⟩
  | .float x => x.fraction?

/-- The order of two numbers; nothing compares with what is not a number. -/
def compare? (a b : Number) : Option Ordering :=
  match a.fraction?, b.fraction? with
  | some x, some y => some (x.compare y)
  | _, _ =>
    match a.toBinary64.reading, b.toBinary64.reading with
    | .nan, _ => none
    | _, .nan => none
    | .infinite s, .infinite t => some (compare (!s) (!t))
    | .infinite s, _ => some (if s then .lt else .gt)
    | _, .infinite t => some (if t then .gt else .lt)
    | _, _ => none

def le (a b : Number) : Bool :=
  match a.compare? b with
  | some .lt => true
  | some .eq => true
  | _ => false

def lt (a b : Number) : Bool := a.compare? b == some .lt

def same (a b : Number) : Bool := a.compare? b == some .eq

def text : Number → String
  | .int n => writeInt n
  | .float x => FloatLayout.report.write x

/-- Numbers without a fraction become integers. -/
def fold : Number → Number
  | .int n => .int n
  | .float x => match x.toInt? with
    | some n => .int n
    | none => .float x

end Number

end TypeAtlas
