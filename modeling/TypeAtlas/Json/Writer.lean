import TypeAtlas.Datum

/-! # Writing JSON

Data as JSON text, on one line or indented. Fields are sorted by name, so two records that hold the
same fields are written alike. Integers must fit 64 bits, signed or unsigned, and containers may
not be nested deeper than `maxDepth`.
-/

namespace TypeAtlas.Json

inductive WriteError where
  | integerRange (n : Int)
  | moment
  | depth
deriving DecidableEq, Repr

/-- The deepest nesting of containers that are not empty. -/
def maxDepth : Nat := 254

def encodable (n : Int) : Bool :=
  decide (-0x8000000000000000 ≤ n) && decide (n < 0x10000000000000000)

def escape (c : Char) : List Char :=
  if c = '"' then ['\\', '"']
  else if c = '\\' then ['\\', '\\']
  else if c = '\n' then ['\\', 'n']
  else if c = '\r' then ['\\', 'r']
  else if c = '\t' then ['\\', 't']
  else if c.toNat = 8 then ['\\', 'b']
  else if c.toNat = 12 then ['\\', 'f']
  else if c.toNat < 32 then '\\' :: 'u' :: Text.hexPadded 4 c.toNat
  else [c]

def quote (s : String) : String := String.ofList ('"' :: s.toList.flatMap escape ++ ['"'])

inductive Style where
  | compact
  | indented
deriving DecidableEq, Repr

def indentation (level : Nat) : String := String.ofList (List.replicate (2 * level) ' ')

/-- The written parts of a container that is not empty, between its brackets. -/
def Style.enclose (style : Style) (level : Nat) (opening closing : String) (parts : List String) :
    String :=
  match style with
  | .compact => opening ++ Text.join "," parts ++ closing
  | .indented =>
    let inner := "\n" ++ indentation (level + 1)
    opening ++ inner ++ Text.join ("," ++ inner) parts ++ "\n" ++ indentation level ++ closing

def Style.colon : Style → String
  | .compact => ":"
  | .indented => ": "

/-- Puts a field before the first one that its name does not exceed. -/
def insertField {α : Type} (f : String × α) : List (String × α) → List (String × α)
  | [] => [f]
  | g :: fields => if f.1 ≤ g.1 then f :: g :: fields else g :: insertField f fields

def sortFields {α : Type} (fields : List (String × α)) : List (String × α) :=
  fields.foldr insertField []

mutual

def write (style : Style) (level : Nat) : Datum → Except WriteError String
  | .null => .ok "null"
  | .bool b => .ok (if b then "true" else "false")
  | .number (.int n) => if encodable n then .ok (writeInt n) else .error (.integerRange n)
  | .number (.float x) => .ok (FloatLayout.document.write x)
  | .text s => .ok (quote s)
  | .moment _ => .error .moment
  | .list [] => .ok "[]"
  | .list (x :: xs) =>
    if maxDepth ≤ level then .error .depth
    else do
      let parts ← writeList style (level + 1) (x :: xs)
      return style.enclose level "[" "]" parts
  | .record [] => .ok "\x7b\x7d"
  | .record (x :: xs) =>
    if maxDepth ≤ level then .error .depth
    else do
      let parts ← writeFields style (level + 1) (x :: xs)
      let lines := (sortFields parts).map fun f => quote f.1 ++ style.colon ++ f.2
      return style.enclose level "\x7b" "\x7d" lines

def writeList (style : Style) (level : Nat) : List Datum → Except WriteError (List String)
  | [] => .ok []
  | x :: xs => do return (← write style level x) :: (← writeList style level xs)

def writeFields (style : Style) (level : Nat) :
    List (String × Datum) → Except WriteError (List (String × String))
  | [] => .ok []
  | (k, x) :: xs => do return (k, ← write style level x) :: (← writeFields style level xs)

end

/-- The canonical text of a value, from which digests are taken. -/
def compact (d : Datum) : Except WriteError String := write .compact 0 d

def indented (d : Datum) : Except WriteError String := write .indented 0 d

end TypeAtlas.Json
