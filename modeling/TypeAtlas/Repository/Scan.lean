import TypeAtlas.Declaration.Files
import TypeAtlas.Repository.Ignore

/-! # Scanning

The source files of a repository. Links are left out, and so are the files that the ignore files or
the given patterns exclude.
-/

namespace TypeAtlas

/-- What a scan takes and leaves out. -/
structure ScanRequest where
  /-- A directory at the top that is left out. -/
  skipped : String := ".typeir"
  /-- If there are any, one of these must describe a path. -/
  included : List String := []
  /-- None of these may describe a path. -/
  excluded : List String := []
  /-- Whether the ignore files of all directories count, and not only that of the root. -/
  nested : Bool := false
deriving DecidableEq, Inhabited, Repr

namespace ScanRequest

def foreignDirectories : List String := ["node_modules", ".git"]

def ignoreFileName : String := ".gitignore"

/-- Ignore rules with the directory they belong to, seen from the root. -/
abbrev IgnoreTable := List (Location × IgnoreRules)

def ignoreFiles (r : ScanRequest) (v : Volume) (root : Path) : List Path :=
  if r.nested then
    (v.tree root).filter fun p => p.name == ignoreFileName && v.isFile (root / p)
  else
    [⟨.relative, [ignoreFileName]⟩].filter fun p => v.isFile (root / p)

def ignoreTable (r : ScanRequest) (v : Volume) (root : Path) : Attempt IgnoreTable :=
  (r.ignoreFiles v root).mapM fun p =>
    match v.read (root / p) with
    | .ok content => do return (p.segments.dropLast, ← IgnoreRules.read content)
    | .error e => .error (.file e)

/-- Whether some ignore file leaves a path out; each sees the paths below its directory. -/
def IgnoreTable.ignores (t : IgnoreTable) (p : Path) : Bool :=
  t.any fun (directory, rules) =>
    match Volume.below? directory p.segments with
    | some rest => rules.ignores (Text.join "/" rest)
    | none => false

/-- Whether a path is below the root even when links are followed. -/
def staysBelow (v : Volume) (root p : Path) : Bool :=
  (Volume.below? (v.resolve root).segments (v.resolve (root / p)).segments).isSome

/-- Whether a path from the root is that of a file which counts. -/
def selects (r : ScanRequest) (v : Volume) (root : Path) (ignored : IgnoreTable) (p : Path) :
    Bool :=
  let file := root / p
  let fits (pattern : String) : Bool :=
    Text.Wildcard.fits (Text.Wildcard.ofString pattern) p.toString
  SourceTree.isSourceName p.name && v.isFile file && !v.isLink file && staysBelow v root p &&
    !p.segments.dropLast.any foreignDirectories.contains &&
    (r.skipped == "" || p.segments.head? != some r.skipped) &&
    !ignored.ignores p &&
    (r.included.isEmpty || r.included.any fits) && !r.excluded.any fits

/-- The source files, as paths from the root in the order of their texts. -/
def scan (r : ScanRequest) (v : Volume) (root : Path) : Attempt (List Path) := do
  let ignored ← r.ignoreTable v root
  return (v.tree root).filter (r.selects v root ignored)

end ScanRequest

end TypeAtlas
