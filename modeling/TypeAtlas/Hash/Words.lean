/-! # Words and bytes

Conversions between byte strings, words and hexadecimal text.
-/

namespace TypeAtlas.Hash

def hexChar (n : UInt8) : Char := Nat.digitChar n.toNat

def hex (bytes : List UInt8) : String :=
  String.ofList (bytes.flatMap fun (b : UInt8) => [hexChar (b / 16), hexChar (b % 16)])

theorem hexChar_ne_null (n : UInt8) : hexChar n ≠ '\x00' := by
  have hall : ∀ m < 256, Nat.digitChar m ≠ '\x00' := by decide +kernel
  exact hall _ n.toNat_lt

theorem not_null_mem_hex (bytes : List UInt8) : '\x00' ∉ (hex bytes).toList := by
  simp [hex, (hexChar_ne_null _).symm]

/-- The byte at an index, zero beyond the end. -/
def byteAt (bytes : ByteArray) (i : Nat) : UInt8 :=
  if h : i < bytes.size then bytes[i] else 0

/-- The words of a byte string, the first byte of each the most significant one. -/
def wordsBE32 : List UInt8 → List UInt32
  | a :: b :: c :: d :: bytes =>
    ((a.toUInt32 <<< 24) ||| (b.toUInt32 <<< 16) ||| (c.toUInt32 <<< 8) ||| d.toUInt32) ::
      wordsBE32 bytes
  | _ => []

def wordsBE64 (bytes : List UInt8) : List UInt64 := pair (wordsBE32 bytes)
where
  pair : List UInt32 → List UInt64
    | a :: b :: words => ((a.toUInt64 <<< 32) ||| b.toUInt64) :: pair words
    | _ => []

def wordLE64 (bytes : ByteArray) (i : Nat) : UInt64 :=
  (List.range 8).foldl (fun w k => w ||| ((byteAt bytes (i + k)).toUInt64 <<< (8 * k).toUInt64)) 0

def bytesBE32 (w : UInt32) : List UInt8 :=
  [(w >>> 24).toUInt8, (w >>> 16).toUInt8, (w >>> 8).toUInt8, w.toUInt8]

def bytesBE64 (w : UInt64) : List UInt8 :=
  bytesBE32 (w >>> 32).toUInt32 ++ bytesBE32 w.toUInt32

def bytesLE64 (w : UInt64) : List UInt8 := (bytesBE64 w).reverse

def rotateRight32 (w : UInt32) (n : UInt32) : UInt32 := (w >>> n) ||| (w <<< (32 - n))

def rotateRight64 (w : UInt64) (n : UInt64) : UInt64 := (w >>> n) ||| (w <<< (64 - n))

def rotateLeft64 (w : UInt64) (n : UInt64) : UInt64 :=
  if n = 0 then w else (w <<< n) ||| (w >>> (64 - n))

def pushZeros (bytes : ByteArray) (count : Nat) : ByteArray :=
  (List.range count).foldl (fun b _ => b.push 0) bytes

end TypeAtlas.Hash
