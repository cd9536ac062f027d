import TypeAtlas.Cache.Artifact
import TypeAtlas.Digest
import TypeAtlas.Tag.Vocabulary

/-! # Fingerprints

What a cached extraction depends on besides the declarations: the bytes of the file, the version of
the extraction, the algorithm and the vocabulary.
-/

namespace TypeAtlas

structure Fingerprint where
  content : String
  algorithm : String
  vocabulary : String
deriving DecidableEq, Inhabited, Repr

namespace Fingerprint

def of (d : Digester) (a : Algorithm) (v : Vocabulary) (content : ByteArray) : Fingerprint where
  content := d.bytes a content
  algorithm := a.name
  vocabulary := v.signature

def toDatum (f : Fingerprint) : Datum :=
  .record [("v", .int Cache.schemaVersion), ("content", .text f.content),
    ("tool", .text Cache.toolVersion), ("algo", .text f.algorithm), ("tags", .text f.vocabulary)]

def key (d : Digester) (a : Algorithm) (f : Fingerprint) : Except Json.WriteError String :=
  d.value a f.toDatum

end Fingerprint

def fingerprintKey (d : Digester) (a : Algorithm) (v : Vocabulary) (content : ByteArray) :
    Except Json.WriteError String :=
  (Fingerprint.of d a v content).key d a

end TypeAtlas
