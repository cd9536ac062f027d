import TypeAtlas.Number.Basic
import TypeAtlas.Text.Lines
import TypeAtlas.Text.Word

/-! # Reading numbers

Numbers written in text. Every reader takes the whole text or nothing.
-/

namespace TypeAtlas

def takeSign : List Char → Bool × List Char
  | '-' :: rest => (true, rest)
  | '+' :: rest => (false, rest)
  | cs => (false, cs)

/-- The text without its low lines, provided that each stands between two digits. -/
def joinDigitGroups? : List Char → Option (List Char)
  | [] => some []
  | [c] => if c = '_' then none else some [c]
  | c :: '_' :: d :: rest =>
    if c = '_' then none
    else if Text.isDigit c && Text.isDigit d then (joinDigitGroups? (d :: rest)).map (c :: ·)
    else none
  | c :: rest => if c = '_' then none else (joinDigitGroups? rest).map (c :: ·)

def readExponent? : List Char → Option Int
  | [] => some 0
  | c :: rest =>
    if c = 'e' || c = 'E' then
      let (negative, digits) := takeSign rest
      if digits.isEmpty || !digits.all Text.isDigit then none
      else some (if negative then -(Text.digitsValue digits : Int) else Text.digitsValue digits)
    else none

/-- A number with an optional fraction and exponent, or the name of a value that is not finite. -/
def readUnsignedFloat? (negative : Bool) (cs : List Char) : Option Binary64 :=
  let name := cs.map Char.toLower
  if name = ['i', 'n', 'f'] || name = ['i', 'n', 'f', 'i', 'n', 'i', 't', 'y'] then
    some (Binary64.infinity negative)
  else if name = ['n', 'a', 'n'] then some Binary64.nan
  else
    let whole := cs.takeWhile Text.isDigit
    let rest := cs.dropWhile Text.isDigit
    let (part, rest) := match rest with
      | '.' :: more => (more.takeWhile Text.isDigit, more.dropWhile Text.isDigit)
      | _ => ([], rest)
    if whole.isEmpty && part.isEmpty then none
    else (readExponent? rest).map fun e =>
      Binary64.ofDecimal negative (Text.digitsValue (whole ++ part)) (e - part.length)

/-- A floating-point number between blanks; its digits may be grouped by low lines. -/
def readFloat? (cs : List Char) : Option Binary64 := do
  let cs ← joinDigitGroups? (Text.trim cs)
  let (negative, body) := takeSign cs
  readUnsignedFloat? negative body

def readInt? (cs : List Char) : Option Int := do
  let cs ← joinDigitGroups? (Text.trim cs)
  let (negative, digits) := takeSign cs
  if digits.isEmpty || !digits.all Text.isDigit then none
  else some (if negative then -(Text.digitsValue digits : Int) else Text.digitsValue digits)

def radixDigit? (radix : Nat) (c : Char) : Option Nat :=
  let v := if c.isDigit then c.toNat - 48
    else if 'a' ≤ c && c ≤ 'f' then c.toNat - 87
    else if 'A' ≤ c && c ≤ 'F' then c.toNat - 55
    else radix
  if v < radix then some v else none

def radixValue? (radix : Nat) : List Char → Option Nat
  | [] => none
  | cs => cs.foldlM (fun n c => (radixDigit? radix c).map (radix * n + ·)) 0

def radixOf? (c : Char) : Option Nat :=
  match c.toLower with
  | 'x' => some 16
  | 'o' => some 8
  | 'b' => some 2
  | _ => none

/-- A natural number in decimal digits, unless there are too many of them. -/
def readDecimalNat? (cs : List Char) : Option Nat :=
  if cs.length ≤ maxDecimalDigits then radixValue? 10 cs else none

/-- A natural number as a literal of source code: with a radix prefix, or decimal without a leading
zero. -/
def readLiteralNat? : List Char → Option Nat
  | '0' :: c :: rest =>
    match radixOf? c with
    | some radix => radixValue? radix rest
    | none => if (c :: rest).all (· == '0') then readDecimalNat? ('0' :: c :: rest) else none
  | cs => readDecimalNat? cs

def readLiteralInt? (cs : List Char) : Option Int :=
  let (negative, body) := takeSign cs
  (readLiteralNat? body).map fun n => if negative then -(n : Int) else n

end TypeAtlas
