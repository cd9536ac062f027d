import TypeAtlas.Hash.Sha2
import TypeAtlas.Hash.Sha3
import TypeAtlas.Hash.Blake2
import TypeAtlas.Json.Writer

/-! # Digests

The hash algorithms that name canonical content, and what they are applied to: the compact JSON
text of a value, or the bytes of a file.
-/

namespace TypeAtlas

inductive Algorithm where
  | sha256
  | sha512
  | blake2b
  | sha3
deriving DecidableEq, Inhabited, Repr

namespace Algorithm

def name : Algorithm → String
  | sha256 => "sha256"
  | sha512 => "sha512"
  | blake2b => "blake2b"
  | sha3 => "sha3_256"

def all : List Algorithm := [sha256, sha512, blake2b, sha3]

def ofName? (s : String) : Option Algorithm := all.find? fun a => a.name == s

theorem ofName?_name (a : Algorithm) : ofName? a.name = some a := by cases a <;> rfl

end Algorithm

/-- A family of digest functions, one for each algorithm. Files can have digests as names. -/
structure Digester where
  bytes : Algorithm → ByteArray → String
  nameable : ∀ a bs, '\x00' ∉ (bytes a bs).toList

namespace Digester

/-- The published algorithms. -/
def standard : Digester where
  bytes
    | .sha256 => Hash.Sha256.digest
    | .sha512 => Hash.Sha512.digest
    | .blake2b => Hash.Blake2.digest
    | .sha3 => Hash.Sha3.digest
  nameable a _ := by cases a <;> exact Hash.not_null_mem_hex _

def text (d : Digester) (a : Algorithm) (s : String) : String := d.bytes a s.toUTF8

def value (d : Digester) (a : Algorithm) (v : Datum) : Except Json.WriteError String :=
  (Json.compact v).map (d.text a)

/-- The value whose digest names a node: its kind, its own content and the digests below it. -/
def nodeValue (kind : String) (payload : List (String × Datum)) (children : List String) : Datum :=
  .list [.text kind, .record payload, .texts children]

def node (d : Digester) (a : Algorithm) (kind : String) (payload : List (String × Datum))
    (children : List String) : Except Json.WriteError String :=
  d.value a (nodeValue kind payload children)

end Digester

end TypeAtlas
