import TypeAtlas.Datum

/-! # Reading JSON

A strict reader: one value between blanks, no comments, no trailing commas, no numbers out of the
range of doubles. When a field is repeated its last value counts.
-/

namespace TypeAtlas.Json

/-- The deepest nesting that a document may have. -/
def maxReadDepth : Nat := 1024

def isSpace (c : Char) : Bool := c == ' ' || c == '\t' || c == '\n' || c == '\r'

def skipSpace (cs : List Char) : List Char := cs.dropWhile isSpace

def hexValue? : List Char → Option Nat
  | cs => cs.foldlM (fun n c =>
      let v := c.toNat
      if '0' ≤ c && c ≤ '9' then some (16 * n + (v - 48))
      else if 'a' ≤ c && c ≤ 'f' then some (16 * n + (v - 87))
      else if 'A' ≤ c && c ≤ 'F' then some (16 * n + (v - 55))
      else none) 0

/-- The character of an escape and the text after it, given the text after the letter u. -/
def readUnicode? : List Char → Option (Char × List Char)
  | a :: b :: c :: d :: rest => do
    let n ← hexValue? [a, b, c, d]
    if n < 0xd800 || 0xe000 ≤ n then some (Char.ofNat n, rest)
    else if 0xdc00 ≤ n then none
    else match rest with
      | '\\' :: 'u' :: e :: f :: g :: h :: rest => do
        let low ← hexValue? [e, f, g, h]
        if 0xdc00 ≤ low && low < 0xe000 then
          some (Char.ofNat (0x10000 + (n - 0xd800) * 0x400 + (low - 0xdc00)), rest)
        else none
      | _ => none
  | _ => none

def shortEscape? (c : Char) : Option Char :=
  match c with
  | '"' => some '"'
  | '\\' => some '\\'
  | '/' => some '/'
  | 'b' => some (Char.ofNat 8)
  | 'f' => some (Char.ofNat 12)
  | 'n' => some '\n'
  | 'r' => some '\r'
  | 't' => some '\t'
  | _ => none

/-- A text up to its closing quote; the fuel bounds the number of characters. -/
def readText? : Nat → List Char → List Char → Option (String × List Char)
  | 0, _, _ => none
  | fuel + 1, acc, cs =>
    match cs with
    | [] => none
    | '"' :: rest => some (String.ofList acc.reverse, rest)
    | '\\' :: 'u' :: rest => do
      let (c, rest) ← readUnicode? rest
      readText? fuel (c :: acc) rest
    | '\\' :: c :: rest => do
      let c ← shortEscape? c
      readText? fuel (c :: acc) rest
    | c :: rest => if c.toNat < 32 || c = '\\' then none else readText? fuel (c :: acc) rest

def asciiValue (cs : List Char) : Nat := cs.foldl (fun n c => 10 * n + (c.toNat - 48)) 0

/-- An integer that fits 64 bits stays one; a larger one becomes a floating-point number. -/
def integerNumber? (negative : Bool) (n : Nat) : Option Number :=
  if negative then
    if n ≤ 0x8000000000000000 then some (.int (-(n : Int)))
    else floating? (Binary64.ofQuotient true n 1)
  else if n < 0x10000000000000000 then some (.int n)
  else floating? (Binary64.ofQuotient false n 1)
where
  floating? (x : Binary64) : Option Number := if x.isFinite then some (.float x) else none

/-- The digits at the start of a text, which must not be absent. -/
def takeDigits? (cs : List Char) : Option (List Char × List Char) :=
  let digits := cs.takeWhile Char.isDigit
  if digits.isEmpty then none else some (digits, cs.dropWhile Char.isDigit)

def readFraction? : List Char → Option (List Char × List Char)
  | '.' :: rest => takeDigits? rest
  | cs => some ([], cs)

def readPower? : List Char → Option (Option Int × List Char)
  | c :: rest =>
    if c = 'e' || c = 'E' then
      let (negative, rest) := match rest with
        | '-' :: more => (true, more)
        | '+' :: more => (false, more)
        | more => (false, more)
      (takeDigits? rest).map fun (ds, rest) =>
        (some (if negative then -(asciiValue ds : Int) else asciiValue ds), rest)
    else some (none, c :: rest)
  | [] => some (none, [])

/-- A number whose sign was read. -/
def readMagnitude? (negative : Bool) (cs : List Char) : Option (Number × List Char) := do
  let (whole, rest) ← takeDigits? cs
  if whole.head? == some '0' && whole.length != 1 then none
  let (part, rest) ← readFraction? rest
  let (power, rest) ← readPower? rest
  match part, power with
  | [], none => return (← integerNumber? negative (asciiValue whole), rest)
  | _, _ =>
    let x := Binary64.ofDecimal negative (asciiValue (whole ++ part)) (power.getD 0 - part.length)
    if x.isFinite then some (.float x, rest) else none

def readNumber? : List Char → Option (Number × List Char)
  | '-' :: rest => readMagnitude? true rest
  | cs => readMagnitude? false cs

/-- A record with one more field; an earlier field of the same name gives way. -/
def putField (fields : List (String × Datum)) (name : String) (d : Datum) :
    List (String × Datum) :=
  if fields.any (·.1 == name) then fields.map fun f => if f.1 == name then (name, d) else f
  else fields ++ [(name, d)]

mutual

/-- A value, with bounds on the number of steps and on the nesting that is left. -/
def readValue? : Nat → Nat → List Char → Option (Datum × List Char)
  | 0, _, _ => none
  | fuel + 1, depth, cs =>
    match cs with
    | 'n' :: 'u' :: 'l' :: 'l' :: rest => some (.null, rest)
    | 't' :: 'r' :: 'u' :: 'e' :: rest => some (.bool true, rest)
    | 'f' :: 'a' :: 'l' :: 's' :: 'e' :: rest => some (.bool false, rest)
    | '"' :: rest => (readText? (rest.length + 1) [] rest).map fun (s, rest) => (.text s, rest)
    | '[' :: rest =>
      match depth with
      | 0 => none
      | depth + 1 =>
        match skipSpace rest with
        | ']' :: rest => some (.list [], rest)
        | rest => readItems? fuel depth [] rest
    | '\x7b' :: rest =>
      match depth with
      | 0 => none
      | depth + 1 =>
        match skipSpace rest with
        | '\x7d' :: rest => some (.record [], rest)
        | rest => readFields? fuel depth [] rest
    | cs => (readNumber? cs).map fun (n, rest) => (.number n, rest)

/-- The items of a list from the next one on, after those already read. -/
def readItems? : Nat → Nat → List Datum → List Char → Option (Datum × List Char)
  | 0, _, _, _ => none
  | fuel + 1, depth, items, cs => do
    let (d, rest) ← readValue? fuel depth cs
    match skipSpace rest with
    | ',' :: rest => readItems? fuel depth (d :: items) (skipSpace rest)
    | ']' :: rest => some (.list (d :: items).reverse, rest)
    | _ => none

def readFields? : Nat → Nat → List (String × Datum) → List Char → Option (Datum × List Char)
  | 0, _, _, _ => none
  | fuel + 1, depth, fields, cs => do
    match cs with
    | '"' :: rest =>
      let (name, rest) ← readText? (rest.length + 1) [] rest
      match skipSpace rest with
      | ':' :: rest =>
        let (d, rest) ← readValue? fuel depth (skipSpace rest)
        match skipSpace rest with
        | ',' :: rest => readFields? fuel depth (putField fields name d) (skipSpace rest)
        | '\x7d' :: rest => some (.record (putField fields name d), rest)
        | _ => none
      | _ => none
    | _ => none

end

def parse? (s : String) : Option Datum := do
  let cs := skipSpace s.toList
  let (d, rest) ← readValue? (2 * cs.length + 2) maxReadDepth cs
  if (skipSpace rest).isEmpty then some d else none

def parseBytes? (bytes : ByteArray) : Option Datum := do
  parse? (← String.fromUTF8? bytes)

end TypeAtlas.Json
