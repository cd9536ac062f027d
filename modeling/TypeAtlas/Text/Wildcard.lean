import TypeAtlas.Text.Parts

/-! # Wildcards

Patterns of characters, classes and stars, and which texts they describe. In a pattern for whole
paths a star crosses slashes; patterns that keep to one segment have stars of their own.
-/

namespace TypeAtlas.Text

structure CharRange where
  first : Char
  last : Char
deriving DecidableEq, Inhabited, Repr

/-- A set of characters, or everything else. -/
structure CharClass where
  negated : Bool
  ranges : List CharRange
deriving DecidableEq, Inhabited, Repr

namespace CharClass

def holds (s : CharClass) (c : Char) : Bool :=
  s.negated != s.ranges.any fun r => r.first ≤ c && c ≤ r.last

/-- The ranges that a text between brackets lists. A range whose ends are in the wrong order is
empty. -/
def readRanges : List Char → List CharRange
  | a :: '-' :: b :: rest =>
    if a ≤ b then ⟨a, b⟩ :: readRanges rest else readRanges rest
  | a :: rest => ⟨a, a⟩ :: readRanges rest
  | [] => []

/-- The class that a text between brackets describes; a leading exclamation mark negates it. -/
def read : List Char → CharClass
  | '!' :: rest => ⟨true, readRanges rest⟩
  | cs => ⟨false, readRanges cs⟩

end CharClass

inductive WildcardPart where
  | char (c : Char)
  | class_ (s : CharClass)
  /-- Any character. -/
  | one
  /-- Any characters. -/
  | many
  /-- Any character but a slash. -/
  | oneWithin
  /-- Any characters but slashes. -/
  | manyWithin
  /-- Nothing, or any characters up to a slash. -/
  | directories
deriving DecidableEq, Inhabited, Repr

abbrev Wildcard := List WildcardPart

namespace Wildcard

/-- What can be left of a text after some of its first characters, which all satisfy a test. -/
def remainders (test : Char → Bool) : List Char → List (List Char)
  | [] => [[]]
  | c :: rest => (c :: rest) :: if test c then remainders test rest else []

/-- What can be left of a text after a slash. -/
def afterSlashes : List Char → List (List Char)
  | [] => []
  | c :: rest => if c = '/' then rest :: afterSlashes rest else afterSlashes rest

/-- Whether a text starts with what the pattern describes, so that the rest of it is accepted. -/
def accepts (done : List Char → Bool) : Wildcard → List Char → Bool
  | [], cs => done cs
  | .char a :: ps, cs =>
    match cs with
    | c :: rest => a == c && accepts done ps rest
    | [] => false
  | .class_ s :: ps, cs =>
    match cs with
    | c :: rest => s.holds c && accepts done ps rest
    | [] => false
  | .one :: ps, cs =>
    match cs with
    | _ :: rest => accepts done ps rest
    | [] => false
  | .many :: ps, cs => (remainders (fun _ => true) cs).any (accepts done ps)
  | .oneWithin :: ps, cs =>
    match cs with
    | c :: rest => c != '/' && accepts done ps rest
    | [] => false
  | .manyWithin :: ps, cs => (remainders (· != '/') cs).any (accepts done ps)
  | .directories :: ps, cs => (cs :: afterSlashes cs).any (accepts done ps)

def fits (p : Wildcard) (s : String) : Bool := accepts List.isEmpty p s.toList

/-- The text up to a closing bracket, and what follows that. A closing bracket at the start stands
for itself. -/
def cutBracket : List Char → Option (List Char × List Char)
  | ']' :: cs =>
    match cut ']' cs with
    | (inside, some after) => some (']' :: inside, after)
    | (_, none) => none
  | cs =>
    match cut ']' cs with
    | (inside, some after) => some (inside, after)
    | (_, none) => none

/-- The text between brackets, given the text after the opening one, and what follows them. -/
def cutClass : List Char → Option (List Char × List Char)
  | '!' :: cs => (cutBracket cs).map fun (inside, after) => ('!' :: inside, after)
  | cs => cutBracket cs

/-- Reads a pattern for whole paths; the fuel bounds its length. -/
def readPath : Nat → List Char → Wildcard
  | 0, _ => []
  | fuel + 1, cs =>
    match cs with
    | [] => []
    | '*' :: rest => .many :: readPath fuel rest
    | '?' :: rest => .one :: readPath fuel rest
    | '[' :: rest =>
      match cutClass rest with
      | some (inside, after) => .class_ (CharClass.read inside) :: readPath fuel after
      | none => .char '[' :: readPath fuel rest
    | c :: rest => .char c :: readPath fuel rest

def ofString (s : String) : Wildcard := readPath s.length s.toList

end Wildcard

end TypeAtlas.Text
