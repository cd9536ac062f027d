import TypeAtlas.Cache.Artifact
import TypeAtlas.Digest
import TypeAtlas.Fault
import TypeAtlas.Files.Volume
import TypeAtlas.Logging
import TypeAtlas.Resolution.Basic
import TypeAtlas.Schema.Basic
import TypeAtlas.Toml.Document

/-! # Configuration

The settings of a repository: where the cache is, what is scanned, and how declarations are
extracted. Every setting has a default.
-/

namespace TypeAtlas

structure TagConfig where
  /-- The core tags; all of them when absent. -/
  enabled : Option (List String) := none
  extra : List String := []
deriving DecidableEq, Inhabited, Repr

structure Config where
  cacheDir : String := Cache.defaultDirectory
  hashAlgorithm : String := "sha256"
  timeoutSeconds : Option Binary64 := none
  maxNodes : Int := defaultMaxNodes
  logLevel : LogLevel := .warning
  included : List String := []
  excluded : List String := []
  nestedGitignore : Bool := false
  tags : TagConfig := {}
deriving DecidableEq, Inhabited, Repr

def CoreTag.sortedNames : List String := Vocabulary.sortedNames (CoreTag.all.map CoreTag.name)

namespace TagConfig

/-- The enabled names must be those of core tags. -/
def checkEnabled (names : Option (List String)) : Checked (Option (List String)) :=
  let unknown := Vocabulary.sortedNames
    ((names.getD []).filter fun s => (CoreTag.ofName? s).isNone)
  if unknown.isEmpty then .ok names
  else .fault (.valueError ("Unknown core tags: " ++ Text.join ", " unknown ++ ". Valid tags: " ++
    Text.join ", " CoreTag.sortedNames))

/-- No extra name may be that of a core tag. -/
def checkExtra (names : List String) : Checked (List String) :=
  let clashes := Vocabulary.sortedNames (names.filter fun s => (CoreTag.ofName? s).isSome)
  if clashes.isEmpty then .ok names
  else .fault (.valueError ("Extra tags shadow core tags: " ++ Text.join ", " clashes))

def read : Datum → Checked TagConfig :=
  Schema.record ["enabled", "extra"] fun fs =>
    TagConfig.mk
      <$> Schema.withDefault fs "enabled"
        (fun d => (Schema.nullable (Schema.list Schema.text) d).andThen checkEnabled) none
      <*> Schema.withDefault fs "extra"
        (fun d => (Schema.list Schema.text d).andThen checkExtra) []

def toDatum (t : TagConfig) : Datum :=
  .record [("enabled", Datum.optional .texts t.enabled), ("extra", .texts t.extra)]

def vocabulary (t : TagConfig) : Except (List String) Vocabulary :=
  Vocabulary.make t.enabled t.extra

end TagConfig

namespace Config

def readAlgorithm (d : Datum) : Checked String :=
  (Schema.text d).andThen fun name =>
    if (Algorithm.ofName? name).isSome then .ok name
    else .fault (.valueError ("Unsupported hash algorithm '" ++ name ++ "'. Valid algorithms: " ++
      Text.join ", " (Algorithm.all.map Algorithm.name)))

/-- A time limit must be more than nothing. -/
def readTimeout (d : Datum) : Checked (Option Binary64) :=
  (Schema.nullable Schema.float d).andThen fun
    | none => .ok none
    | some x =>
      if (Number.int 0).lt (.float x) then .ok (some x) else .fault .greaterThan

def readMaxNodes (d : Datum) : Checked Int :=
  (Schema.int d).andThen fun n => if 0 < n then .ok n else .fault .greaterThan

/-- A level in capitals or small letters. -/
def readLogLevel (d : Datum) : Checked LogLevel :=
  Schema.oneOf (fun s => LogLevel.ofName? (Text.capitals s)) d

def fieldNames : List String := ["cache_dir", "hash_algorithm", "timeout_seconds", "max_nodes",
  "log_level", "include", "exclude", "nested_gitignore", "tags"]

def read : Datum → Checked Config :=
  Schema.record fieldNames fun fs =>
    Config.mk <$> Schema.withDefault fs "cache_dir" Schema.text Cache.defaultDirectory
      <*> Schema.withDefault fs "hash_algorithm" readAlgorithm "sha256"
      <*> Schema.withDefault fs "timeout_seconds" readTimeout none
      <*> Schema.withDefault fs "max_nodes" readMaxNodes defaultMaxNodes
      <*> Schema.withDefault fs "log_level" readLogLevel .warning
      <*> Schema.withDefault fs "include" (Schema.list Schema.text) []
      <*> Schema.withDefault fs "exclude" (Schema.list Schema.text) []
      <*> Schema.withDefault fs "nested_gitignore" Schema.bool false
      <*> Schema.withDefault fs "tags" TagConfig.read {}

def toDatum (c : Config) : Datum :=
  .record [("cache_dir", .text c.cacheDir), ("hash_algorithm", .text c.hashAlgorithm),
    ("timeout_seconds", Datum.optional .float c.timeoutSeconds), ("max_nodes", .int c.maxNodes),
    ("log_level", .text c.logLevel.name), ("include", .texts c.included),
    ("exclude", .texts c.excluded), ("nested_gitignore", .bool c.nestedGitignore),
    ("tags", c.tags.toDatum)]

/-- The vocabulary of a configuration; a configuration that was read has one. -/
def vocabulary (c : Config) : Vocabulary :=
  match c.tags.vocabulary with
  | .ok v => v
  | .error _ => .standard

end Config

end TypeAtlas

/-! ## Configuration files -/

namespace TypeAtlas.Config

def fileName : String := "typeir.toml"

def ofDocument (file : String) (content : ByteArray) : Attempt Config :=
  match String.fromUTF8? content with
  | none => .error .notUtf8
  | some s =>
    match Toml.parse? s with
    | none => .error (.config (.malformed file))
    | some fields =>
      match read (.record fields) with
      | .ok c => .ok c
      | .bad issues => .error (.config (.invalid file issues))

def load (v : Volume) (root : Path) : Attempt Config :=
  let file := root.child fileName
  if v.isFile file then
    match v.read file with
    | .ok content => ofDocument file.toString content
    | .error e => .error (.file e)
  else .ok {}

/-- The directory of a cache that is named from a root. Links are followed, and the directory must
be below the root. -/
def resolveCacheDir (v : Volume) (root : Path) (cacheDir : String) : Attempt Path :=
  if cacheDir = "" then .error (.config .emptyCacheDir)
  else if "~".isPrefixOf cacheDir || (Path.ofString cacheDir).isAbsolute then
    .error (.config .absoluteCacheDir)
  else
    let top := v.resolve root
    let directory := v.resolve (top / Path.ofString cacheDir)
    match Volume.below? top.segments directory.segments with
    | some [] => .error (.config .rootCacheDir)
    | some _ => .ok directory
    | none => .error (.config (.escapingCacheDir cacheDir))

end TypeAtlas.Config
