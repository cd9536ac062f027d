import TypeAtlas.Number.Reader
import TypeAtlas.Toml.Text

/-! # TOML scalars

Numbers, dates and times. The longest form that starts at a position is read, and what follows it
is left.
-/

namespace TypeAtlas.Toml

/-! ## Numbers -/

/-- Digits that single low lines may separate, without the low lines, and what follows them. -/
def takeDigits (isDigit : Char → Bool) : List Char → List Char × List Char
  | '_' :: c :: rest =>
    if isDigit c then
      let (more, rest) := takeDigits isDigit rest
      (c :: more, rest)
    else ([], '_' :: c :: rest)
  | c :: rest =>
    if isDigit c then
      let (more, rest) := takeDigits isDigit rest
      (c :: more, rest)
    else ([], c :: rest)
  | [] => ([], [])

def takeDigits? (isDigit : Char → Bool) (cs : List Char) : Option (List Char × List Char) :=
  match cs with
  | c :: _ => if isDigit c then some (takeDigits isDigit cs) else none
  | [] => none

def readRadix? : List Char → Option (Number × List Char)
  | '0' :: c :: rest => do
    let radix ← match c with
      | 'x' => some 16
      | 'o' => some 8
      | 'b' => some 2
      | _ => none
    let (digits, rest) ← takeDigits? (fun d => (radixDigit? radix d).isSome) rest
    return (.int (← radixValue? radix digits), rest)
  | _ => none

/-- The whole part of a decimal number, which has no leading zeros. -/
def takeWhole? : List Char → Option (List Char × List Char)
  | '0' :: rest => some (['0'], rest)
  | cs => takeDigits? Char.isDigit cs

/-- The fraction of a number, if there is one. -/
def takeFraction : List Char → List Char × List Char
  | '.' :: rest => (takeDigits? Char.isDigit rest).getD ([], '.' :: rest)
  | cs => ([], cs)

/-- The exponent of a number, if there is one. -/
def takeExponent (cs : List Char) : Option Int × List Char :=
  match cs with
  | c :: rest =>
    if c = 'e' || c = 'E' then
      let (negative, digits) := takeSign rest
      match takeDigits? Char.isDigit digits with
      | some (ds, rest) =>
        let n : Int := Text.digitsValue ds
        (some (if negative then -n else n), rest)
      | none => (none, cs)
    else (none, cs)
  | [] => (none, [])

def readDecimal? (cs : List Char) : Option (Number × List Char) := do
  let (negative, body) := takeSign cs
  let (whole, rest) ← takeWhole? body
  let (part, rest) := takeFraction rest
  let (power, rest) := takeExponent rest
  match part, power with
  | [], none =>
    let n : Int := Text.digitsValue whole
    return (.int (if negative then -n else n), rest)
  | _, _ =>
    let x := Binary64.ofDecimal negative (Text.digitsValue (whole ++ part))
      (power.getD 0 - part.length)
    return (.float x, rest)

/-- A number that is not finite, or none at all. -/
def readSpecial? (cs : List Char) : Option (Number × List Char) :=
  let (negative, body) := takeSign cs
  match body with
  | 'i' :: 'n' :: 'f' :: rest => some (.float (Binary64.infinity negative), rest)
  | 'n' :: 'a' :: 'n' :: rest => some (.float Binary64.nan, rest)
  | _ => none

/-! ## Dates and times -/

/-- A number of exactly so many digits, and what follows it. -/
def takeNumber? (digits : Nat) (cs : List Char) : Option (Nat × List Char) :=
  let ds := cs.take digits
  if ds.length = digits && ds.all Char.isDigit then some (Text.digitsValue ds, cs.drop digits)
  else none

def expect? (c : Char) : List Char → Option (List Char)
  | d :: rest => if c = d then some rest else none
  | [] => none

def isLeapYear (y : Nat) : Bool := y % 4 = 0 && (y % 100 ≠ 0 || y % 400 = 0)

def daysIn (year month : Nat) : Nat :=
  if month = 2 then if isLeapYear year then 29 else 28
  else if month = 4 || month = 6 || month = 9 || month = 11 then 30
  else 31

def isDate (year month day : Nat) : Bool := 1 ≤ year && day ≤ daysIn year month

/-- Year, month and day with a month from 1 to 12 and a day from 1 to 31. -/
def takeDate? (cs : List Char) : Option ((Nat × Nat × Nat) × List Char) := do
  let (year, rest) ← takeNumber? 4 cs
  let (month, rest) ← takeNumber? 2 (← expect? '-' rest)
  let (day, rest) ← takeNumber? 2 (← expect? '-' rest)
  if 1 ≤ month && month ≤ 12 && 1 ≤ day && day ≤ 31 then some ((year, month, day), rest) else none

def skipTime? (cs : List Char) : Option (List Char) := do
  let (hour, rest) ← takeNumber? 2 cs
  let (minute, rest) ← takeNumber? 2 (← expect? ':' rest)
  let (second, rest) ← takeNumber? 2 (← expect? ':' rest)
  if hour ≤ 23 && minute ≤ 59 && second ≤ 59 then
    match rest with
    | '.' :: c :: more => if c.isDigit then some (more.dropWhile Char.isDigit) else some rest
    | _ => some rest
  else none

/-- What follows an offset from universal time, if there is one. -/
def skipOffset (cs : List Char) : List Char :=
  let shifted (rest : List Char) : Option (List Char) := do
    let (hour, rest) ← takeNumber? 2 rest
    let (minute, rest) ← takeNumber? 2 (← expect? ':' rest)
    if hour ≤ 23 && minute ≤ 59 then some rest else none
  match cs with
  | c :: rest =>
    if c = 'Z' || c = 'z' then rest
    else if c = '+' || c = '-' then (shifted rest).getD cs
    else cs
  | [] => []

/-- What follows the time after a date, if there is one. -/
def skipTimeOfDate (cs : List Char) : List Char :=
  match cs with
  | c :: rest =>
    if c = 'T' || c = 't' || c = ' ' then ((skipTime? rest).map skipOffset).getD cs else cs
  | [] => []

def upTo (cs rest : List Char) : String := String.ofList (cs.take (cs.length - rest.length))

/-- A number, date or time. A date that does not exist is an error, and not the start of a
number. -/
def readScalar (cs : List Char) : Option (Datum × List Char) :=
  match takeDate? cs with
  | some ((year, month, day), rest) =>
    if isDate year month day then
      let rest := skipTimeOfDate rest
      some (.moment (upTo cs rest), rest)
    else none
  | none =>
    match skipTime? cs with
    | some rest => some (.moment (upTo cs rest), rest)
    | none =>
      (((readRadix? cs).or (readDecimal? cs)).or (readSpecial? cs)).map
        fun (n, rest) => (.number n, rest)

end TypeAtlas.Toml
