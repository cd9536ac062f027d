import TypeAtlas.Json.Reader

/-! # TOML strings

The four forms of strings: basic and literal ones, each on one line or on several. A reader is given
the text after the opening quotes and returns what follows the closing ones.
-/

namespace TypeAtlas.Toml

/-- Whether a character is a control character, which may not occur in a document. -/
def isControl (c : Char) : Bool := c.toNat < 32 || c.toNat = 127

/-- Whether a character may stand in a string or comment. -/
def isPlain (c : Char) : Bool := c = '\t' || !isControl c

def isSpace (c : Char) : Bool := c == ' ' || c == '\t'

def skipSpace (cs : List Char) : List Char := cs.dropWhile isSpace

def isNewlineOrSpace (c : Char) : Bool := isSpace c || c == '\n'

def escape? (c : Char) : Option Char :=
  match c with
  | 'b' => some (Char.ofNat 8)
  | 't' => some '\t'
  | 'n' => some '\n'
  | 'f' => some (Char.ofNat 12)
  | 'r' => some '\r'
  | '"' => some '"'
  | '\\' => some '\\'
  | _ => none

/-- The character that hexadecimal digits number, and what follows them. -/
def readScalar? (digits : Nat) (cs : List Char) : Option (Char × List Char) := do
  let hex := cs.take digits
  if hex.length != digits then none
  let n ← Json.hexValue? hex
  if n < 0xd800 || (0xe000 ≤ n && n < 0x110000) then some (Char.ofNat n, cs.drop digits) else none

/-- The text after a line that ends with a backslash: the next one that is not blank. Nothing but
blanks may stand between the backslash and the end of the line. -/
def skipLineEnd? (cs : List Char) : Option (List Char) :=
  match skipSpace cs with
  | [] => some []
  | '\n' :: rest => some (rest.dropWhile isNewlineOrSpace)
  | _ => none

/-- What an escape adds to a string, and what follows it. -/
def readEscape? (multiline : Bool) : List Char → Option (List Char × List Char)
  | 'u' :: rest => (readScalar? 4 rest).map fun (c, rest) => ([c], rest)
  | 'U' :: rest => (readScalar? 8 rest).map fun (c, rest) => ([c], rest)
  | c :: rest =>
    if multiline && isNewlineOrSpace c then (skipLineEnd? (c :: rest)).map fun rest => ([], rest)
    else (escape? c).map fun e => ([e], rest)
  | [] => none

/-- The rest of a basic string on one line; the fuel bounds its length. -/
def readBasic? : Nat → List Char → List Char → Option (String × List Char)
  | 0, _, _ => none
  | fuel + 1, acc, cs =>
    match cs with
    | [] => none
    | '"' :: rest => some (String.ofList acc.reverse, rest)
    | '\\' :: rest => do
      let (e, rest) ← readEscape? false rest
      readBasic? fuel (e ++ acc) rest
    | c :: rest => if isPlain c then readBasic? fuel (c :: acc) rest else none

/-- Up to two quotes directly before the closing ones belong to a string. -/
def closeMultiline (quote : Char) (acc rest : List Char) : String × List Char :=
  let extra := (rest.take 2).takeWhile (· == quote)
  (String.ofList (extra ++ acc).reverse, rest.drop extra.length)

/-- The rest of a basic string on several lines. -/
def readMultilineBasic? : Nat → List Char → List Char → Option (String × List Char)
  | 0, _, _ => none
  | fuel + 1, acc, cs =>
    match cs with
    | [] => none
    | '"' :: '"' :: '"' :: rest => some (closeMultiline '"' acc rest)
    | '\\' :: rest => do
      let (e, rest) ← readEscape? true rest
      readMultilineBasic? fuel (e ++ acc) rest
    | c :: rest => if isPlain c || c = '\n' then readMultilineBasic? fuel (c :: acc) rest else none

/-- The rest of a literal string on one line. -/
def readLiteral? : List Char → List Char → Option (String × List Char)
  | _, [] => none
  | acc, c :: rest =>
    if c = '\'' then some (String.ofList acc.reverse, rest)
    else if isPlain c then readLiteral? (c :: acc) rest
    else none

/-- The rest of a literal string on several lines. -/
def readMultilineLiteral? : List Char → List Char → Option (String × List Char)
  | _, [] => none
  | acc, '\'' :: '\'' :: '\'' :: rest => some (closeMultiline '\'' acc rest)
  | acc, c :: rest => if isPlain c || c = '\n' then readMultilineLiteral? (c :: acc) rest else none

def dropNewline : List Char → List Char
  | '\n' :: rest => rest
  | cs => cs

/-- A string of any form, if one starts here. -/
def readString? (cs : List Char) : Option (String × List Char) :=
  let fuel := cs.length + 1
  match cs with
  | '"' :: '"' :: '"' :: rest => readMultilineBasic? fuel [] (dropNewline rest)
  | '"' :: rest => readBasic? fuel [] rest
  | '\'' :: '\'' :: '\'' :: rest => readMultilineLiteral? [] (dropNewline rest)
  | '\'' :: rest => readLiteral? [] rest
  | _ => none

end TypeAtlas.Toml
