import TypeAtlas.Repository.Index

/-! # Verification

Whether a cache is exactly what a fresh run would leave: the repository is indexed once more into an
empty directory, and the files of both are compared byte by byte. The repository and the cache stay
as they are.
-/

namespace TypeAtlas

/-- How a cache differs from a fresh run, which leaves the `extra` files and not the `missing` ones. -/
structure CacheComparison where
  mismatches : List String := []
  missing : List String := []
  extra : List String := []
deriving DecidableEq, Inhabited, Repr

namespace CacheComparison

def ok (c : CacheComparison) : Bool :=
  c.mismatches.isEmpty && c.missing.isEmpty && c.extra.isEmpty

end CacheComparison

namespace Verification

/-- What is seen of a file. -/
structure FileView where
  path : String
  size : Nat
  reading : Except FileError ByteArray

/-- The files below a directory, in the order of their paths. -/
def filesBelow (v : Volume) (root : Path) : List FileView :=
  (v.tree root).filterMap fun p =>
    match v.find (root / p) with
    | .ok (_, .file content) => some ⟨p.toString, content.size, v.read (root / p)⟩
    | _ => none

def lookup (files : List FileView) (path : String) : Option FileView :=
  files.find? fun f => f.path == path

/-- Whether two files differ. They are read only if they have the same size. -/
def differ (f g : FileView) : Attempt Bool :=
  if f.size != g.size then return true
  else match f.reading, g.reading with
    | .ok x, .ok y => return x != y
    | .error e, _ => throw (.file e)
    | _, .error e => throw (.file e)

def compare (recorded fresh : List FileView) : Attempt CacheComparison := do
  let mismatches ← recorded.filterM fun f => match lookup fresh f.path with
    | some g => differ f g
    | none => return false
  return {
    mismatches := mismatches.map FileView.path
    missing := (recorded.filter fun f => (lookup fresh f.path).isNone).map FileView.path
    extra := (fresh.filter fun f => (lookup recorded f.path).isNone).map FileView.path }

/-- A directory of which nothing is there: its name is longer than all others. -/
def freshDirectory (v : Volume) : Path :=
  let lengths := v.entries.keys.flatMap fun l => l.map String.length
  Path.root.child (String.ofList (List.replicate (lengths.foldl max 0 + 1) 'x'))

end Verification

open Verification in
/-- Compares the cache in a directory with a fresh run. -/
def verifyDeterminism (d : Digester) (root directory : Path) (config : Option Config)
    (clock : Clock := .still) : Work CacheComparison := do
  let v := (← get).volume
  if !v.isPresent directory then throw (.noCache directory.toString)
  else if !v.isDirectory directory then throw (.cacheNotDirectory directory.toString)
  else
    let fresh := freshDirectory v
    let restore : Work Unit := modify fun w => { w with volume := v }
    try
      let _ ← indexRepositoryAsConfigured d root (some fresh) config clock
    catch f =>
      restore
      throw f
    let written := filesBelow (← get).volume fresh
    restore
    let c ← compare (filesBelow v directory) written
    if !c.ok then
      Work.say .info "verify.verify" ("Cache differs from a fresh run: " ++
        toString c.mismatches.length ++ " mismatched, " ++ toString c.missing.length ++
        " missing, " ++ toString c.extra.length ++ " extra")
    return c

end TypeAtlas
