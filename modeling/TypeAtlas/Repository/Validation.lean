import TypeAtlas.Cache.Document
import TypeAtlas.Normal.Normalization

/-! # Validation

Checks a cache directory against its contract: the directories, the fixed documents, every envelope
and record, and that every stored graph has the hash that its entry records. What does not belong
to the cache is a warning.
-/

namespace TypeAtlas

/-- A remark on a part of a cache. -/
structure ValidationNote where
  artifact : String
  path : Path
  message : String
deriving DecidableEq, Inhabited, Repr

namespace ValidationNote

def toDatum (n : ValidationNote) : Datum :=
  .record [("artifact", .text n.artifact), ("path", .text n.path.toString),
    ("message", .text n.message)]

def render (n : ValidationNote) : String := n.path.toString ++ ": " ++ n.message

end ValidationNote

structure ValidationResult where
  errors : List ValidationNote := []
  warnings : List ValidationNote := []
deriving DecidableEq, Inhabited, Repr

namespace ValidationResult

def ok (r : ValidationResult) : Bool := r.errors.isEmpty

def append (a b : ValidationResult) : ValidationResult :=
  ⟨a.errors ++ b.errors, a.warnings ++ b.warnings⟩

instance : Append ValidationResult := ⟨append⟩

def error (artifact : String) (path : Path) (message : String) : ValidationResult :=
  { errors := [⟨artifact, path, message⟩] }

def warning (artifact : String) (path : Path) (message : String) : ValidationResult :=
  { warnings := [⟨artifact, path, message⟩] }

def all (rs : List ValidationResult) : ValidationResult := rs.foldl append {}

end ValidationResult

namespace Validation

open ValidationResult

variable {α : Type}

def invalidRecord : String := "Schema validation failed"

def invalidDocument : String := "Invalid JSON"

/-- A record must have the version of this contract. -/
def checkVersion (artifact : String) (path : Path) (version : Int) : ValidationResult :=
  if version = Cache.schemaVersion then {}
  else error artifact path ("Schema version mismatch: expected " ++ writeInt Cache.schemaVersion ++
    ", got " ++ writeInt version ++ ".")

/-- A record with a version, if it can be read, and what is wrong with it. -/
def checkRecord (artifact : String) (path : Path) (read : Datum → Checked α) (version : α → Int)
    (d : Datum) : Option α × ValidationResult :=
  match read d with
  | .ok record => (some record, checkVersion artifact path (version record))
  | .bad _ => (none, error artifact path invalidRecord)

def checkDocument (v : Volume) (artifact : String) (path : Path) (read : Datum → Checked α)
    (version : α → Int) : Option α × ValidationResult :=
  if !v.isFile path then (none, error artifact path "Required artifact file is missing.")
  else
    match (v.read path).toOption.bind Json.parseBytes? with
    | none => (none, error artifact path invalidDocument)
    | some d => checkRecord artifact path read version d

def checkEnvelope (d : Digester) (v : Volume) (algorithm artifact : String) (path : Path)
    (read : Datum → Checked α) (version : α → Int) : Attempt (Option α × ValidationResult) := do
  let payload ← Cache.readEnvelope d algorithm v path
  match payload.value with
  | none => return (none, all (payload.diagnostics.map fun x => error artifact path x.message))
  | some payload => return checkRecord artifact path read version payload

def checkHash (d : Digester) (algorithm : String) (path : Path) (e : CacheEntry) :
    Attempt ValidationResult := do
  let a ← Algorithm.choose (some algorithm) (some e.graph.algorithm)
  let hash ← Attempt.ofWrite (e.graph.toGraph.hash d a)
  return if hash.value = some e.hash then {}
    else error CacheKind.ir.name path "Cached IR does not hash to its recorded hash."

def checkEntry (d : Digester) (v : Volume) (algorithm : String) (path : Path) :
    Attempt ValidationResult := do
  let (entry, result) ←
    checkEnvelope d v algorithm CacheKind.ir.name path CacheEntry.read CacheEntry.schemaVersion
  match entry with
  | none => return result
  | some e => return result ++ (← checkHash d algorithm path e)

def checkTable (d : Digester) (v : Volume) (algorithm : String) (path : Path) :
    Attempt ValidationResult := do
  return (← checkEnvelope d v algorithm CacheKind.symbols.name path SymbolTable.read
    SymbolTable.schemaVersion).2

/-- The documents of a family, and the warnings about what else is in their directory. -/
def documents (v : Volume) (root : Path) (kind : CacheKind) : List Path × ValidationResult :=
  let directory := Cache.directory root kind
  let paths := (v.list directory).map directory.child
  let belongs (p : Path) : Bool := v.isFile p && Cache.isEntryFilename p.name
  (paths.filter belongs, all ((paths.filter fun p => !belongs p).map fun p =>
    warning kind.name p "Unexpected file in cache directory."))

def checkFamily (v : Volume) (root : Path) (kind : CacheKind)
    (check : Path → Attempt ValidationResult) : Attempt ValidationResult := do
  let (paths, warnings) := documents v root kind
  return warnings ++ all (← paths.mapM check)

def checkDirectories (v : Volume) (root : Path) : ValidationResult :=
  all (CacheKind.all.map fun kind =>
    let directory := Cache.directory root kind
    if v.isDirectory directory then {}
    else error kind.name directory "Required directory is missing.")

end Validation

open Validation in
def validateCache (d : Digester) (v : Volume) (root : Path) : Attempt ValidationResult := do
  if !v.isPresent root then
    return .error "cache_dir" root "Cache directory does not exist."
  else if !v.isDirectory root then
    return .error "cache_dir" root "Cache path is not a directory."
  else
    let (index, indexed) := checkDocument v CacheKind.index.name (root / Cache.indexFile)
      RepositoryIndex.read RepositoryIndex.schemaVersion
    let (_, summed) := checkDocument v CacheKind.manifests.name (root / Cache.manifestFile)
      Manifest.read Manifest.schemaVersion
    let algorithm := match index with
      | some i => i.algorithm
      | none => Algorithm.sha256.name
    let entries ← checkFamily v root .ir (checkEntry d v algorithm)
    let tables ← checkFamily v root .symbols (checkTable d v algorithm)
    return checkDirectories v root ++ indexed ++ summed ++ entries ++ tables

end TypeAtlas
