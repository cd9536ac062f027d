import TypeAtlas.Text.Parts

/-! # Paths

A path is anchored at a root or relative, and has no empty or `.` segments. Segments `..` are kept,
since what they lead to depends on links, until a path is folded. Exactly two slashes at the start
of a path make a root of their own; any other number makes the common root.
-/

namespace TypeAtlas

inductive PathAnchor where
  | relative
  | root
  | doubleRoot
deriving DecidableEq, Inhabited, Repr

structure Path where
  anchor : PathAnchor := .relative
  segments : List String
deriving DecidableEq, Inhabited, Repr

namespace Path

def root : Path := ⟨.root, []⟩

/-- The anchor that the slashes at the start of a text stand for. -/
def anchorOf : List Char → PathAnchor
  | '/' :: '/' :: '/' :: _ => .root
  | '/' :: '/' :: _ => .doubleRoot
  | '/' :: _ => .root
  | _ => .relative

def ofString (s : String) : Path where
  anchor := anchorOf s.toList
  segments := ((Text.splitAt '/' s.toList).map String.ofList).filter fun t => t ≠ "" && t ≠ "."

def isAbsolute (p : Path) : Bool := p.anchor != .relative

def toString (p : Path) : String :=
  match p.anchor, p.segments with
  | .relative, [] => "."
  | .relative, ss => Text.join "/" ss
  | .root, ss => "/" ++ Text.join "/" ss
  | .doubleRoot, ss => "//" ++ Text.join "/" ss

/-- The second path seen from the first. -/
def join (p q : Path) : Path :=
  if q.isAbsolute then q else { p with segments := p.segments ++ q.segments }

instance : Div Path := ⟨join⟩

def child (p : Path) (name : String) : Path := { p with segments := p.segments ++ [name] }

def name (p : Path) : String := p.segments.getLast?.getD ""

def parent (p : Path) : Path := { p with segments := p.segments.dropLast }

/-- Whether a null character is in the path, which then can be that of nothing. -/
def hasNull (p : Path) : Bool := p.segments.any fun s => s.toList.contains '\x00'

@[simp] theorem hasNull_child (p : Path) (name : String) :
    (p.child name).hasNull = (p.hasNull || name.toList.contains '\x00') := by
  simp [hasNull, child, List.any_append]

/-- Takes one more segment; the segments so far have the last one first. Nothing lies above a
root. -/
def foldStep (absolute : Bool) (done : List String) (segment : String) : List String :=
  if segment = ".." then
    match done with
    | [] => if absolute then [] else [".."]
    | last :: rest => if last = ".." then ".." :: done else rest
  else segment :: done

/-- The path without `..` segments, as far as they do not lead above its start. Links are not
followed. -/
def fold (p : Path) : Path :=
  { p with segments := (p.segments.foldl (foldStep p.isAbsolute) []).reverse }

def directoryOf (s : String) : Path :=
  ofString (String.ofList (s.toList.reverse.dropWhile (· != '/')).reverse)

/-- A path in its only form. Backslashes separate like slashes, and a relative path stands at the
base, which itself stands at the working directory. -/
def normalize (path : String) (base : Option String) (workingDirectory : Path := root) : String :=
  let start := match base with
    | none => workingDirectory
    | some b => workingDirectory / ofString b
  (start / ofString (Text.swap '\\' '/' path)).fold.toString

end Path

end TypeAtlas
