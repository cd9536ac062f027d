import TypeAtlas.Cache.Document

/-! # The content cache

Entries are filed under the digest of the file's fingerprint, the file and the symbol, so a change
of any of them leads to another entry.
-/

namespace TypeAtlas

structure ContentCache where
  root : Path
  algorithm : Algorithm
deriving DecidableEq, Inhabited, Repr

namespace ContentCache

def origin : String := "cache.store"

variable (d : Digester) (c : ContentCache)

def entryKey (fingerprint file symbol : String) : Except Json.WriteError String :=
  d.value c.algorithm (.texts ["ir", fingerprint, file, symbol])

def tableKey (file : String) : Except Json.WriteError String :=
  d.value c.algorithm (.texts ["symbols", file])

def file (kind : CacheKind) (key : String) : Path :=
  (Cache.directory c.root kind).child (Cache.entryFilename key)

def entryPath (fingerprint file symbol : String) : Attempt Path := do
  return c.file .ir (← Attempt.ofWrite (c.entryKey d fingerprint file symbol))

def tablePath (file : String) : Attempt Path := do
  return c.file .symbols (← Attempt.ofWrite (c.tableKey d file))

def readingLines (v : Volume) (path : Path) : List LogLine :=
  match v.read path with
  | .error _ => []
  | .ok content =>
    match Cache.envelope? content with
    | none => [⟨.debug, "cache.layout", "Malformed cache envelope " ++ path.toString⟩]
    | some _ => []

/-- Whose entry it is decides whether it may be used. -/
def checkEntry (path : Path) (file symbol : String) (e : CacheEntry) : Outcome CacheEntry :=
  if e.symbol = symbol && e.filePath = file then .success e
  else Cache.corrupted path "entry belongs to another symbol"

/-- The entry of a symbol, if there is one that can be used. -/
def lookup (fingerprint file symbol : String) : Work (Outcome CacheEntry) := do
  let path ← c.entryPath d fingerprint file symbol
  let payload ← Cache.readEnvelope d c.algorithm.name (← get).volume path
  Work.log (readingLines (← get).volume path)
  match payload.value with
  | none =>
    Work.say .debug origin ("Cache miss for " ++ file ++ ":" ++ symbol)
    return payload.withValue none
  | some payload =>
    match CacheEntry.read payload with
    | .ok e => return checkEntry path file symbol e
    | .bad _ =>
      Work.say .debug origin ("Invalid cache entry " ++ path.toString)
      return Cache.corrupted path "invalid entry"

def store (fingerprint : String) (e : CacheEntry) : Work (Outcome Unit) := do
  let layout ← Cache.ensureLayout c.root
  if !layout.ok then return layout
  let path ← c.entryPath d fingerprint e.filePath e.symbol
  Work.say .debug origin ("Caching " ++ e.filePath ++ ":" ++ e.symbol ++ " at " ++ path.name)
  Cache.writeEnvelope d c.algorithm path e.toDatum

def loadTable (file : String) : Work (Outcome SymbolTable) := do
  let path ← c.tablePath d file
  let payload ← Cache.readEnvelope d c.algorithm.name (← get).volume path
  Work.log (readingLines (← get).volume path)
  match payload.value with
  | none => return payload.withValue none
  | some payload =>
    match SymbolTable.read payload with
    | .ok t => return .success t
    | .bad _ => return Cache.corrupted path "invalid symbol table"

def storeTable (t : SymbolTable) : Work (Outcome Unit) := do
  let layout ← Cache.ensureLayout c.root
  if !layout.ok then return layout
  Cache.writeEnvelope d c.algorithm (← c.tablePath d t.filePath) t.toDatum

end ContentCache

end TypeAtlas
