import TypeAtlas.Cache.Record
import TypeAtlas.Digest
import TypeAtlas.Json.Reader
import TypeAtlas.Workspace

/-! # Cache documents

Reading and writing the files of a cache. Every file is an indented document with sorted fields, so
equal contents are equal bytes. An envelope is read back only if nothing about it is wrong; what is
wrong with it is a warning, never a failure.
-/

namespace TypeAtlas

namespace Cache

def directory (root : Path) (kind : CacheKind) : Path := root.child kind.name

def ensureLayout (root : Path) : Work (Outcome Unit) := do
  let made ← Work.act
    (CacheKind.all.forM fun kind => FileAction.ensureDirectories (directory root kind))
  return match made with
    | .ok _ => {}
    | .error e => ⟨none, [Diagnostic.ofFileError root.toString e]⟩

def writeBytes (path : Path) (content : ByteArray) : Work (Outcome Unit) := do
  match ← Work.mustAct (FileAction.replace path content) with
  | .ok _ => return {}
  | .error e => return ⟨none, [Diagnostic.ofFileError path.toString e]⟩

def writeDocument (path : Path) (d : Datum) : Work (Outcome Unit) := do
  let text ← Attempt.ofWrite (Json.indented d)
  writeBytes path text.toUTF8

def writeEnvelope (d : Digester) (a : Algorithm) (path : Path) (payload : Datum) :
    Work (Outcome Unit) := do
  let checksum ← Attempt.ofWrite (d.value a payload)
  writeDocument path ({ algorithm := a.name, checksum, payload : Envelope }).toDatum

def corruption (path : Path) (detail : String) : Diagnostic :=
  Diagnostic.make .cacheCorrupted [.text (path.toString ++ " (" ++ detail ++ ")")]
    (some { filePath := some path.toString })

def corrupted {α : Type} (path : Path) (detail : String) : Outcome α :=
  ⟨none, [corruption path detail]⟩

/-- What an envelope holds if it is in order: of this version and algorithm, with the digest of its
payload. -/
def openEnvelope (d : Digester) (algorithm : String) (path : Path) (e : Envelope) :
    Attempt (Outcome Datum) :=
  if e.version != schemaVersion then
    .ok (corrupted path ("envelope version " ++ writeInt e.version))
  else
    match Algorithm.ofName? e.algorithm, e.algorithm == algorithm with
    | some a, true => do
      if (← Attempt.ofWrite (d.value a e.payload)) != e.checksum then
        return corrupted path "checksum mismatch"
      else return match e.payload with
        | .null => {}
        | payload => .success payload
    | _, _ => .ok (corrupted path ("algorithm " ++ e.algorithm))

/-- Whether bytes are an envelope at all. -/
def envelope? (content : ByteArray) : Option Envelope := do
  match Envelope.read (← Json.parseBytes? content) with
  | .ok e => some e
  | .bad _ => none

/-- Reads the payload of an envelope. A file that is not there has none, without a warning. -/
def readEnvelope (d : Digester) (algorithm : String) (v : Volume) (path : Path) :
    Attempt (Outcome Datum) :=
  match v.read path with
  | .error .notFound => .ok {}
  | .error e => .ok (corrupted path ("unreadable: " ++ e.describe path.toString))
  | .ok content =>
    match envelope? content with
    | none => .ok (corrupted path "malformed envelope")
    | some e => openEnvelope d algorithm path e

end Cache

end TypeAtlas
