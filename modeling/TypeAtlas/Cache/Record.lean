import TypeAtlas.Cache.Artifact
import TypeAtlas.Graph.Record
import TypeAtlas.Schema.Basic

/-! # Cache records

The records that a cache holds: entries for symbols, tables of the symbols of a file, the index of
a repository and the summary of the run that wrote it.
-/

namespace TypeAtlas

/-- A document with the digest of what it holds. -/
structure Envelope where
  version : Int := Cache.schemaVersion
  algorithm : String
  checksum : String
  payload : Datum
deriving Inhabited

namespace Envelope

def toDatum (e : Envelope) : Datum :=
  .record [("v", .int e.version), ("algo", .text e.algorithm), ("checksum", .text e.checksum),
    ("payload", e.payload)]

def read : Datum → Checked Envelope :=
  Schema.record ["v", "algo", "checksum", "payload"] fun fs =>
    Envelope.mk <$> Schema.required fs "v" Schema.int
      <*> Schema.required fs "algo" Schema.text
      <*> Schema.required fs "checksum" Schema.text
      <*> Schema.required fs "payload" .ok

end Envelope

structure CacheEntry where
  schemaVersion : Int := Cache.schemaVersion
  symbol : String
  filePath : String
  hash : String
  graph : CanonicalGraph
  /-- The content digests of all files that the graph was built from. -/
  sources : Std.ExtTreeMap String String := ∅
  /-- The reports of the extraction, as records. -/
  diagnostics : List (List (String × Datum)) := []
deriving Inhabited

namespace CacheEntry

def toDatum (e : CacheEntry) : Datum :=
  .record [("schema_version", .int e.schemaVersion), ("symbol", .text e.symbol),
    ("file_path", .text e.filePath), ("hash", .text e.hash), ("ir", e.graph.toDatum),
    ("sources", .record (e.sources.toList.map fun s => (s.1, .text s.2))),
    ("diagnostics", .list (e.diagnostics.map .record))]

def read : Datum → Checked CacheEntry :=
  Schema.record ["schema_version", "symbol", "file_path", "hash", "ir", "sources", "diagnostics"]
    fun fs =>
      CacheEntry.mk
        <$> Schema.withDefault fs "schema_version" Schema.int Cache.schemaVersion
        <*> Schema.required fs "symbol" Schema.text
        <*> Schema.required fs "file_path" Schema.text
        <*> Schema.required fs "hash" Schema.text
        <*> Schema.required fs "ir" CanonicalGraph.read
        <*> (Schema.withDefault fs "sources" (Schema.dict Schema.text) []).map
          (fun ss => Std.ExtTreeMap.ofList ss)
        <*> Schema.withDefault fs "diagnostics" (Schema.list Schema.anyRecord) []

end CacheEntry

structure SymbolSummary where
  name : String
  hash : Option String
  ok : Bool
  dependencies : List String := []
  codes : List String := []
deriving DecidableEq, Inhabited, Repr

namespace SymbolSummary

def toDatum (s : SymbolSummary) : Datum :=
  .record [("name", .text s.name), ("hash", Datum.optional .text s.hash), ("ok", .bool s.ok),
    ("dependencies", .texts s.dependencies), ("codes", .texts s.codes)]

def read : Datum → Checked SymbolSummary :=
  Schema.record ["name", "hash", "ok", "dependencies", "codes"] fun fs =>
    SymbolSummary.mk <$> Schema.required fs "name" Schema.text
      <*> Schema.required fs "hash" (Schema.nullable Schema.text)
      <*> Schema.required fs "ok" Schema.bool
      <*> Schema.withDefault fs "dependencies" (Schema.list Schema.text) []
      <*> Schema.withDefault fs "codes" (Schema.list Schema.text) []

end SymbolSummary

structure SymbolTable where
  schemaVersion : Int := Cache.schemaVersion
  filePath : String
  fileFingerprint : String
  symbols : List SymbolSummary := []
deriving DecidableEq, Inhabited, Repr

namespace SymbolTable

def toDatum (t : SymbolTable) : Datum :=
  .record [("schema_version", .int t.schemaVersion), ("file_path", .text t.filePath),
    ("file_fingerprint", .text t.fileFingerprint),
    ("symbols", .list (t.symbols.map SymbolSummary.toDatum))]

def read : Datum → Checked SymbolTable :=
  Schema.record ["schema_version", "file_path", "file_fingerprint", "symbols"] fun fs =>
    SymbolTable.mk
      <$> Schema.withDefault fs "schema_version" Schema.int Cache.schemaVersion
      <*> Schema.required fs "file_path" Schema.text
      <*> Schema.required fs "file_fingerprint" Schema.text
      <*> Schema.withDefault fs "symbols" (Schema.list SymbolSummary.read) []

end SymbolTable

/-- What the index tells about a file. -/
structure IndexedFile where
  fileFingerprint : String
  symbols : List (String × Option String) := []
deriving DecidableEq, Inhabited, Repr

namespace IndexedFile

def toDatum (f : IndexedFile) : Datum :=
  .record [("file_fingerprint", .text f.fileFingerprint),
    ("symbols", .record (f.symbols.map fun s => (s.1, Datum.optional .text s.2)))]

def read : Datum → Checked IndexedFile :=
  Schema.record ["file_fingerprint", "symbols"] fun fs =>
    IndexedFile.mk <$> Schema.required fs "file_fingerprint" Schema.text
      <*> Schema.withDefault fs "symbols" (Schema.dict (Schema.nullable Schema.text)) []

end IndexedFile

structure RepositoryIndex where
  schemaVersion : Int := Cache.schemaVersion
  toolVersion : String := Cache.toolVersion
  algorithm : String
  files : List (String × IndexedFile) := []
deriving DecidableEq, Inhabited, Repr

namespace RepositoryIndex

def toDatum (i : RepositoryIndex) : Datum :=
  .record [("schema_version", .int i.schemaVersion), ("tool_version", .text i.toolVersion),
    ("algorithm", .text i.algorithm),
    ("files", .record (i.files.map fun f => (f.1, f.2.toDatum)))]

def read : Datum → Checked RepositoryIndex :=
  Schema.record ["schema_version", "tool_version", "algorithm", "files"] fun fs =>
    RepositoryIndex.mk
      <$> Schema.withDefault fs "schema_version" Schema.int Cache.schemaVersion
      <*> Schema.required fs "tool_version" Schema.text
      <*> Schema.required fs "algorithm" Schema.text
      <*> Schema.withDefault fs "files" (Schema.dict IndexedFile.read) []

end RepositoryIndex

structure Manifest where
  schemaVersion : Int := Cache.schemaVersion
  toolVersion : String := Cache.toolVersion
  algorithm : String
  fileCount : Int := 0
  symbolCount : Int := 0
  failedSymbols : List String := []
  /-- How often each code was reported. -/
  diagnostics : List (String × Int) := []
  recursiveGroups : List (List String) := []
deriving DecidableEq, Inhabited, Repr

namespace Manifest

def toDatum (m : Manifest) : Datum :=
  .record [("schema_version", .int m.schemaVersion), ("tool_version", .text m.toolVersion),
    ("algorithm", .text m.algorithm), ("file_count", .int m.fileCount),
    ("symbol_count", .int m.symbolCount), ("failed_symbols", .texts m.failedSymbols),
    ("diagnostics", .record (m.diagnostics.map fun d => (d.1, .int d.2))),
    ("recursive_groups", .list (m.recursiveGroups.map .texts))]

def read : Datum → Checked Manifest :=
  Schema.record ["schema_version", "tool_version", "algorithm", "file_count", "symbol_count",
    "failed_symbols", "diagnostics", "recursive_groups"] fun fs =>
    Manifest.mk
      <$> Schema.withDefault fs "schema_version" Schema.int Cache.schemaVersion
      <*> Schema.required fs "tool_version" Schema.text
      <*> Schema.required fs "algorithm" Schema.text
      <*> Schema.withDefault fs "file_count" Schema.int 0
      <*> Schema.withDefault fs "symbol_count" Schema.int 0
      <*> Schema.withDefault fs "failed_symbols" (Schema.list Schema.text) []
      <*> Schema.withDefault fs "diagnostics" (Schema.dict Schema.int) []
      <*> Schema.withDefault fs "recursive_groups" (Schema.list (Schema.list Schema.text)) []

end Manifest

end TypeAtlas
