import Std.Data.ExtTreeMap
import TypeAtlas.Files.Path
import TypeAtlas.Text.Quoted

/-! # Volumes

A file system as a value: what is at every location, how paths lead there, and why an access fails. A
path is followed segment by segment through directories and links.
-/

/-! ## File errors -/

namespace TypeAtlas

/-- Why an access fails. All errors but the last one are those of the system. -/
inductive FileError where
  | notFound
  | denied
  | exists_
  | notDirectory
  | isDirectory
  | noSpace
  | notEmpty
  | loop
  | nullCharacter
deriving DecidableEq, Inhabited, Repr

namespace FileError

def reason : FileError → String
  | notFound => "No such file or directory"
  | denied => "Permission denied"
  | exists_ => "File exists"
  | notDirectory => "Not a directory"
  | isDirectory => "Is a directory"
  | noSpace => "No space left on device"
  | notEmpty => "Directory not empty"
  | loop => "Too many levels of symbolic links"
  | nullCharacter => "embedded null byte"

def number? : FileError → Option Nat
  | notFound => some 2
  | denied => some 13
  | exists_ => some 17
  | notDirectory => some 20
  | isDirectory => some 21
  | noSpace => some 28
  | notEmpty => some 39
  | loop => some 40
  | nullCharacter => none

def isSystem (e : FileError) : Bool := e.number?.isSome

def describe (e : FileError) (file : String) : String :=
  match e.number? with
  | some n => "[Errno " ++ toString n ++ "] " ++ e.reason ++ ": " ++ Text.quote file
  | none => e.reason

end FileError

/-! ## File systems -/

/-- The names that lead from the root of a volume to a directory, file or link. -/
abbrev Location := List String

inductive FileEntry where
  | directory
  | file (content : ByteArray)
  | link (target : Path)
deriving BEq, Inhabited

/-- What a volume can refuse. -/
inductive FileStep where
  | readFile
  | makeDirectory
  | createFile
  | writeFile
  | rename
  | removeFile
deriving DecidableEq, Inhabited, Repr

/-- Why a system refuses a step although nothing is in the way of it. It does not say then that nothing
is there. -/
abbrev Refusal := { e : FileError // e.isSystem ∧ e ≠ .notFound }

structure Volume where
  entries : Std.ExtTreeMap Location FileEntry := ∅
  workingDirectory : Location := []
  /-- The refusal of a step at a location. -/
  refusal : FileStep → Location → Option Refusal := fun _ _ => none

namespace Volume

def at? (v : Volume) (l : Location) : Option FileEntry :=
  if l = [] then some .directory else v.entries[l]?

def start (v : Volume) (p : Path) : Location := if p.isAbsolute then [] else v.workingDirectory

/-! ## Following paths -/

def maxLinks : Nat := 40

/-- Where a link leads from the directory that it is in. -/
def linkStart (target : Path) (directory : Location) : Location :=
  if target.isAbsolute then [] else directory

/-- The location to which the segments lead from a directory. Nothing need be there, but all that
comes before must be. A link at the end is followed if asked for. -/
def walk (v : Volume) (throughLast : Bool) : Nat → Location → List String →
    Except FileError Location
  | _, at_, [] => .ok at_
  | links, at_, segment :: rest =>
    if segment = ".." then walk v throughLast links at_.dropLast rest
    else
      let next := at_ ++ [segment]
      match v.at? next with
      | some .directory => walk v throughLast links next rest
      | some (.link target) =>
        if rest.isEmpty && !throughLast then .ok next
        else match links with
          | 0 => .error .loop
          | links + 1 => walk v throughLast links (linkStart target at_) (target.segments ++ rest)
      | some (.file _) => if rest.isEmpty then .ok next else .error .notDirectory
      | none => if rest.isEmpty then .ok next else .error .notFound
termination_by links _ todo => (links, todo.length)

/-- The location of a path, following a link at its end. -/
def locate (v : Volume) (p : Path) : Except FileError Location :=
  v.walk true maxLinks (v.start p) p.segments

/-- The location of a path itself, even if it is a link. -/
def locateItself (v : Volume) (p : Path) : Except FileError Location :=
  v.walk false maxLinks (v.start p) p.segments

def find (v : Volume) (p : Path) : Except FileError (Location × FileEntry) := do
  let l ← v.locate p
  match v.at? l with
  | some e => return (l, e)
  | none => throw .notFound

/-- The location of a path where every link is followed; where nothing is, segments are taken as
they stand. -/
def settle (v : Volume) : Nat → Location → List String → Location
  | _, at_, [] => at_
  | links, at_, segment :: rest =>
    if segment = ".." then settle v links at_.dropLast rest
    else match v.at? (at_ ++ [segment]), links with
      | some (.link target), links + 1 =>
        settle v links (linkStart target at_) (target.segments ++ rest)
      | _, links => settle v links (at_ ++ [segment]) rest
termination_by links _ todo => (links, todo.length)

def resolve (v : Volume) (p : Path) : Path :=
  ⟨.root, v.settle maxLinks (v.start p) p.segments⟩

/-! ## Looking -/

def isFile (v : Volume) (p : Path) : Bool :=
  match v.find p with
  | .ok (_, .file _) => true
  | _ => false

def isDirectory (v : Volume) (p : Path) : Bool :=
  match v.find p with
  | .ok (_, .directory) => true
  | _ => false

def isPresent (v : Volume) (p : Path) : Bool := (v.find p).isOk

def isLink (v : Volume) (p : Path) : Bool :=
  match v.locateItself p with
  | .ok l => match v.at? l with
    | some (.link _) => true
    | _ => false
  | .error _ => false

def read (v : Volume) (p : Path) : Except FileError ByteArray := do
  match ← v.find p with
  | (l, .file content) =>
    match v.refusal .readFile l with
    | some e => throw e.val
    | none => return content
  | _ => throw .isDirectory

def directorySize : Nat := 4096

def size (v : Volume) (p : Path) : Except FileError Nat := do
  match (← v.find p).2 with
  | .file content => return content.size
  | _ => return directorySize

/-- What follows the beginning of a location. -/
def below? : Location → Location → Option Location
  | [], l => some l
  | _ :: _, [] => none
  | a :: as, b :: bs => if a = b then below? as bs else none

/-- The locations below one, seen from there. Links are not followed. -/
def below (v : Volume) (l : Location) : List Location :=
  (v.entries.keys.filterMap (below? l)).filter (· ≠ [])

def names (v : Volume) (l : Location) : List String :=
  (v.below l).filterMap fun rest => match rest with
    | [name] => some name
    | _ => none

/-- The names of what is in the directory of a path; none if it is not a directory. -/
def list (v : Volume) (p : Path) : List String :=
  match v.find p with
  | .ok (l, .directory) => v.names l
  | _ => []

/-- Everything below the directory of a path, as relative paths in the order of their texts. -/
def tree (v : Volume) (p : Path) : List Path :=
  match v.find p with
  | .ok (l, .directory) =>
    let paths := (v.below l).map fun rest => (⟨.relative, rest⟩ : Path)
    paths.mergeSort fun a b => decide (a.toString ≤ b.toString)
  | _ => []

end Volume

end TypeAtlas
