import Mathlib.Data.Nat.Digits.Defs
import TypeAtlas.Cache.Artifact
import TypeAtlas.Digest
import TypeAtlas.Proofs.Normal.Sealed

/-! # Digests to read

Digests of the published algorithms are texts of 64 or 128 hexadecimal digits, so that they can name
the entries of a cache. A legible digest is the digested text itself, with the quotation marks moved out of
the way: digests of digests need no escapes. No two texts collide, so it serves wherever a statement assumes
that none do.
-/

namespace TypeAtlas

namespace Hash

/-! ## Digits -/

theorem isHexDigit_digitChar {n : ℕ} (h : n < 16) : Cache.isHexDigit (Nat.digitChar n) := by
  revert n
  decide

theorem isHexDigit_of_mem_hex {bytes : List UInt8} : ∀ c ∈ (hex bytes).toList, Cache.isHexDigit c := by
  intro c hc
  rw [hex, String.toList_ofList, List.mem_flatMap] at hc
  obtain ⟨b, -, hc⟩ := hc
  have hbyte := b.toNat_lt
  have hhigh : (b / 16).toNat < 16 := by
    rw [UInt8.toNat_div]
    exact Nat.div_lt_of_lt_mul hbyte
  have hlow : (b % 16).toNat < 16 := by
    rw [UInt8.toNat_mod]
    exact Nat.mod_lt _ (by decide)
  simp only [List.mem_cons, List.not_mem_nil, or_false] at hc
  rcases hc with rfl | rfl
  · exact isHexDigit_digitChar hhigh
  · exact isHexDigit_digitChar hlow

/-! ## Lengths -/

theorem length_flatMap_of_forall {α β : Type} {f : α → List β} {n : ℕ} (hf : ∀ x, (f x).length = n)
    (xs : List α) : (xs.flatMap f).length = xs.length * n := by
  simp [List.length_flatMap, hf, List.map_const']

theorem length_hex (bytes : List UInt8) : (hex bytes).length = bytes.length * 2 := by
  have hpair (b : UInt8) : [hexChar (b / 16), hexChar (b % 16)].length = 2 := rfl
  rw [hex, String.length_ofList, length_flatMap_of_forall hpair]

theorem length_bytesBE64 (w : UInt64) : (bytesBE64 w).length = 8 := rfl

theorem length_bytesLE64 (w : UInt64) : (bytesLE64 w).length = 8 := rfl

theorem length_blake2 (bytes : ByteArray) : (Blake2.digest bytes).length = 128 := by
  have hsize (h block : Array UInt64) (count : ℕ) (last : Bool) :
      (Blake2.compress h block count last).toList.length = 8 := by
    simp [Blake2.compress]
  rw [Blake2.digest, length_hex, length_flatMap_of_forall length_bytesLE64, hsize]

theorem length_sha256 (bytes : ByteArray) : (Sha256.digest bytes).length = 64 := by
  rw [Sha256.digest, length_hex, length_flatMap_of_forall (n := 4) fun _ => rfl]
  rfl

theorem length_sha512 (bytes : ByteArray) : (Sha512.digest bytes).length = 128 := by
  rw [Sha512.digest, length_hex, length_flatMap_of_forall length_bytesBE64]
  rfl

theorem length_sha3 (bytes : ByteArray) : (Sha3.digest bytes).length = 64 := by
  rw [Sha3.digest, length_hex, length_flatMap_of_forall fun _ => length_bytesLE64 _]
  rfl

end Hash

namespace Digester

/-- Digests are the names of entries up to the extension. -/
def Hexadecimal (d : Digester) : Prop :=
  ∀ a bs, 16 ≤ (d.bytes a bs).length ∧ (d.bytes a bs).length ≤ 128 ∧
    ∀ c ∈ (d.bytes a bs).toList, Cache.isHexDigit c

theorem standard_hexadecimal : standard.Hexadecimal := by
  intro a bs
  cases a
  · exact ⟨by simp [standard, Hash.length_sha256], by simp [standard, Hash.length_sha256],
      Hash.isHexDigit_of_mem_hex⟩
  · exact ⟨by simp [standard, Hash.length_sha512], by simp [standard, Hash.length_sha512],
      Hash.isHexDigit_of_mem_hex⟩
  · exact ⟨by simp [standard, Hash.length_blake2], by simp [standard, Hash.length_blake2],
      Hash.isHexDigit_of_mem_hex⟩
  · exact ⟨by simp [standard, Hash.length_sha3], by simp [standard, Hash.length_sha3],
      Hash.isHexDigit_of_mem_hex⟩

end Digester

/-! ## Legible digests -/

namespace Digester

/-- The quotation mark takes turns with the ten marks around it, and a null byte is told by a character
beyond all bytes. -/
def legibleCode (b : UInt8) : ℕ :=
  if 33 ≤ b.toNat ∧ b.toNat ≤ 43 then (b.toNat - 33 + 10) % 11 + 33
  else if b.toNat = 0 then 256 else b.toNat

theorem legibleCode_lt (b : UInt8) : legibleCode b < 257 := by
  have := b.toNat_lt
  unfold legibleCode
  split <;> [skip; split] <;> omega

theorem legibleCode_pos (b : UInt8) : 0 < legibleCode b := by
  unfold legibleCode
  split <;> [skip; split] <;> omega

theorem legibleCode_injective : Function.Injective legibleCode := by
  intro b c h
  apply UInt8.toNat.inj
  have hb := b.toNat_lt
  have hc := c.toNat_lt
  unfold legibleCode at h
  split at h <;> split at h <;> (try split at h) <;> (try split at h) <;> omega

theorem toNat_ofNat_of_lt {n : ℕ} (h : n < 257) : (Char.ofNat n).toNat = n := by
  have hv : n.isValidChar := .inl (by omega)
  rw [Char.ofNat, dif_pos hv]
  rfl

def legible : Digester where
  bytes _ bs := String.ofList (bs.data.toList.map fun b => Char.ofNat (legibleCode b))
  nameable _ bs h := by
    rw [String.toList_ofList, List.mem_map] at h
    obtain ⟨b, -, hb⟩ := h
    have hcode := toNat_ofNat_of_lt (legibleCode_lt b)
    rw [hb] at hcode
    exact absurd (legibleCode_pos b) (by simp [← hcode])

/-- The digests of different bytes differ, whatever the algorithms. -/
theorem legible_bytes_inj {a b : Algorithm} {x y : ByteArray}
    (h : legible.bytes a x = legible.bytes b y) : x = y := by
  have hchar : Function.Injective fun b => Char.ofNat (legibleCode b) := by
    intro b c hbc
    apply legibleCode_injective
    rw [← toNat_ofNat_of_lt (legibleCode_lt b), ← toNat_ofNat_of_lt (legibleCode_lt c)]
    exact congrArg Char.toNat hbc
  have hbytes : x.data.toList = y.data.toList :=
    List.map_injective_iff.2 hchar (String.ofList_injective h)
  exact ByteArray.ext (Array.ext' hbytes)

theorem legible_collisionFree (a : Algorithm) (S : Set String) : legible.CollisionFree a S := by
  intro s _ t _ h
  exact String.toByteArray_inj.1 (legible_bytes_inj h)

end Digester

end TypeAtlas
