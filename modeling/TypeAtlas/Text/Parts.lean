/-! # Parts of a text

Cutting a text at a separating character, and simple tests and replacements.
-/

namespace TypeAtlas.Text

/-- The part before the first separator and, when there is one, the part after it. -/
def cut (sep : Char) : List Char → List Char × Option (List Char)
  | [] => ([], none)
  | c :: rest =>
    if c = sep then ([], some rest)
    else let (before, after) := cut sep rest; (c :: before, after)

/-- All parts between separators; a text without one is its only part. -/
def splitAt (sep : Char) : List Char → List (List Char)
  | [] => [[]]
  | c :: rest =>
    if c = sep then [] :: splitAt sep rest
    else match splitAt sep rest with
      | [] => [[c]]
      | part :: parts => (c :: part) :: parts

/-- The text after its last separator; all of it when there is none. -/
def afterLast (sep : Char) (cs : List Char) : List Char :=
  (cs.reverse.takeWhile (· != sep)).reverse

def dropLeading? : List Char → List Char → Option (List Char)
  | [], rest => some rest
  | _ :: _, [] => none
  | p :: ps, c :: cs => if p = c then dropLeading? ps cs else none

/-- Small letters become capitals. The dotless i counts as a small letter I; other letters outside
ASCII are kept. -/
def capital (c : Char) : Char :=
  if c.toNat = 305 then 'I' else c.toUpper

def capitals (s : String) : String := String.ofList (s.toList.map capital)

def small (s : String) : String := String.ofList (s.toList.map Char.toLower)

def swap (old new : Char) (s : String) : String :=
  String.ofList (s.toList.map fun c => if c = old then new else c)

/-- The texts joined, a separator between neighbours. -/
def join (sep : String) : List String → String
  | [] => ""
  | s :: rest => rest.foldl (fun acc t => acc ++ sep ++ t) s

end TypeAtlas.Text
