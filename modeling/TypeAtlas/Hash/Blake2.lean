import TypeAtlas.Hash.Sha2

/-! # BLAKE2b

The 64-byte BLAKE2b digest of a byte string, without a key.
-/

namespace TypeAtlas.Hash.Blake2

/-- The order in which each round takes the words of the block. -/
def schedule : List (List Nat) := [
  [0, 1, 2, 3, 4, 5, 6, 7, 8, 9, 10, 11, 12, 13, 14, 15],
  [14, 10, 4, 8, 9, 15, 13, 6, 1, 12, 0, 2, 11, 7, 5, 3],
  [11, 8, 12, 0, 5, 2, 15, 13, 10, 14, 3, 6, 7, 1, 9, 4],
  [7, 9, 3, 1, 13, 12, 11, 14, 2, 6, 5, 10, 4, 0, 15, 8],
  [9, 0, 5, 7, 2, 4, 10, 15, 14, 1, 11, 12, 6, 8, 3, 13],
  [2, 12, 6, 10, 0, 11, 8, 3, 4, 13, 7, 5, 15, 14, 1, 9],
  [12, 5, 1, 15, 14, 13, 4, 10, 0, 7, 6, 3, 9, 2, 8, 11],
  [13, 11, 7, 14, 12, 1, 3, 9, 5, 0, 15, 4, 8, 6, 2, 10],
  [6, 15, 14, 9, 11, 3, 0, 8, 12, 2, 13, 7, 1, 4, 10, 5],
  [10, 2, 8, 4, 7, 6, 1, 5, 15, 11, 9, 14, 3, 12, 13, 0],
  [0, 1, 2, 3, 4, 5, 6, 7, 8, 9, 10, 11, 12, 13, 14, 15],
  [14, 10, 4, 8, 9, 15, 13, 6, 1, 12, 0, 2, 11, 7, 5, 3]]

def initial : Array UInt64 :=
  let s := Sha512.initial
  #[s.a, s.b, s.c, s.d, s.e, s.f, s.g, s.h]

def wordAt (ws : Array UInt64) (i : Nat) : UInt64 := ws.getD i 0

def mix (v : Array UInt64) (a b c d : Nat) (x y : UInt64) : Array UInt64 :=
  let va := wordAt v a + wordAt v b + x
  let vd := rotateRight64 (wordAt v d ^^^ va) 32
  let vc := wordAt v c + vd
  let vb := rotateRight64 (wordAt v b ^^^ vc) 24
  let va := va + vb + y
  let vd := rotateRight64 (vd ^^^ va) 16
  let vc := vc + vd
  let vb := rotateRight64 (vb ^^^ vc) 63
  (((v.setIfInBounds a va).setIfInBounds b vb).setIfInBounds c vc).setIfInBounds d vd

/-- The columns and then the diagonals of the state, as four rows of four. -/
def lines : List (Nat × Nat × Nat × Nat) := [
  (0, 4, 8, 12), (1, 5, 9, 13), (2, 6, 10, 14), (3, 7, 11, 15),
  (0, 5, 10, 15), (1, 6, 11, 12), (2, 7, 8, 13), (3, 4, 9, 14)]

def mixLines (block : Array UInt64) :
    Array UInt64 → List (Nat × Nat × Nat × Nat) → List Nat → Array UInt64
  | v, (a, b, c, d) :: rest, x :: y :: order =>
    mixLines block (mix v a b c d (wordAt block x) (wordAt block y)) rest order
  | v, _, _ => v

/-- Takes in the block that ends after `count` bytes. -/
def compress (h : Array UInt64) (block : Array UInt64) (count : Nat) (last : Bool) :
    Array UInt64 :=
  let v := h ++ initial
  let v := v.setIfInBounds 12 (wordAt v 12 ^^^ .ofNat count)
  let v := if last then v.setIfInBounds 14 (~~~(wordAt v 14)) else v
  let v := schedule.foldl (fun v order => mixLines block v lines order) v
  (Array.range 8).map fun i => wordAt h i ^^^ wordAt v i ^^^ wordAt v (i + 8)

def blockWords (bytes : ByteArray) (start : Nat) : Array UInt64 :=
  (Array.range 16).map fun i => wordLE64 bytes (start + 8 * i)

def digest (bytes : ByteArray) : String :=
  let start := initial.setIfInBounds 0 (wordAt initial 0 ^^^ 0x01010040)
  let full := (bytes.size - 1) / 128
  let h := (List.range full).foldl
    (fun h i => compress h (blockWords bytes (128 * i)) (128 * (i + 1)) false) start
  let h := compress h (blockWords bytes (128 * full)) bytes.size true
  hex (h.toList.flatMap bytesLE64)

end TypeAtlas.Hash.Blake2
