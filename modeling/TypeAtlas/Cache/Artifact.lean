import TypeAtlas.Files.Path

/-! # Cache artifacts

The names under which a cache keeps its documents. Entries are filed under a hexadecimal key; the
index and the manifest of a repository have fixed names.
-/

namespace TypeAtlas

/-- The families of documents, each with a directory of its own. -/
inductive CacheKind where
  | ir
  | symbols
  | index
  | manifests
deriving DecidableEq, Inhabited, Repr

namespace CacheKind

def name : CacheKind → String
  | ir => "ir"
  | symbols => "symbols"
  | index => "index"
  | manifests => "manifests"

def all : List CacheKind := [ir, symbols, index, manifests]

/-- Where the documents of a family are, from the cache directory. -/
def pattern : CacheKind → String
  | ir => "ir/\x7bkey\x7d.json"
  | symbols => "symbols/\x7bkey\x7d.json"
  | index => "index/index.json"
  | manifests => "manifests/manifest.json"

def enveloped : CacheKind → Bool
  | ir | symbols => true
  | index | manifests => false

def contents : CacheKind → String
  | ir => "CacheEntry: symbol, file_path, hash, ir, sources."
  | symbols => "SymbolTable: file_path, file_fingerprint, symbols."
  | index => "RepositoryIndex: schema_version, algorithm, files."
  | manifests => "Manifest: counts, diagnostics, recursive_groups."

end CacheKind

namespace Cache

def schemaVersion : Int := 1

/-- The version of the extraction, on which every key depends. -/
def toolVersion : String := "0.1.0"

def defaultDirectory : String := ".typeir/cache"

/-- The index of the repository, from the cache directory. -/
def indexFile : Path := ⟨.relative, ["index", "index.json"]⟩

/-- The summary of the last run, from the cache directory. -/
def manifestFile : Path := ⟨.relative, ["manifests", "manifest.json"]⟩

def entryFilename (key : String) : String := key ++ ".json"

def isHexDigit (c : Char) : Bool :=
  ('0' ≤ c && c ≤ '9') || ('a' ≤ c && c ≤ 'f')

/-- Whether a name is that of an entry: 16 to 128 hexadecimal digits and the extension, which a
line feed may follow. -/
def isEntryFilename (name : String) : Bool :=
  let cs := name.toList
  let digits := cs.takeWhile isHexDigit
  let rest := String.ofList (cs.dropWhile isHexDigit)
  decide (16 ≤ digits.length) && decide (digits.length ≤ 128) &&
    (rest == ".json" || rest == ".json\n")

end Cache

end TypeAtlas
