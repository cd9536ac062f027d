import TypeAtlas.Hash.Words

/-! # SHA3-256

The SHA3-256 digest of a byte string: a sponge of twenty-five words, lane `x + 5 * y` standing in
column `x` and row `y`.
-/

namespace TypeAtlas.Hash.Sha3

def roundConstants : List UInt64 := [
  0x0000000000000001, 0x0000000000008082, 0x800000000000808a, 0x8000000080008000,
  0x000000000000808b, 0x0000000080000001, 0x8000000080008081, 0x8000000000008009,
  0x000000000000008a, 0x0000000000000088, 0x0000000080008009, 0x000000008000000a,
  0x000000008000808b, 0x800000000000008b, 0x8000000000008089, 0x8000000000008003,
  0x8000000000008002, 0x8000000000000080, 0x000000000000800a, 0x800000008000000a,
  0x8000000080008081, 0x8000000000008080, 0x0000000080000001, 0x8000000080008008]

/-- How far each lane is turned. -/
def offsets : Array UInt64 := #[
  0, 1, 62, 28, 27, 36, 44, 6, 55, 20, 3, 10, 43,
  25, 39, 41, 45, 15, 21, 8, 18, 2, 61, 56, 14]

def lane (s : Array UInt64) (i : Nat) : UInt64 := s.getD i 0

/-- Every lane meets the parity of two neighbouring columns. -/
def theta (s : Array UInt64) : Array UInt64 :=
  let c := (Array.range 5).map fun x =>
    lane s x ^^^ lane s (x + 5) ^^^ lane s (x + 10) ^^^ lane s (x + 15) ^^^ lane s (x + 20)
  let d := (Array.range 5).map fun x =>
    lane c ((x + 4) % 5) ^^^ rotateLeft64 (lane c ((x + 1) % 5)) 1
  (Array.range 25).map fun i => lane s i ^^^ lane d (i % 5)

/-- Lanes are turned and moved: column `x` of row `y` is taken from column `x + 3 * y` of row
`x`. -/
def rhoPi (s : Array UInt64) : Array UInt64 :=
  (Array.range 25).map fun i =>
    let x := i % 5
    let y := i / 5
    let source := (x + 3 * y) % 5 + 5 * x
    rotateLeft64 (lane s source) (lane offsets source)

def chi (s : Array UInt64) : Array UInt64 :=
  (Array.range 25).map fun i =>
    let row := i - i % 5
    lane s i ^^^ ((~~~(lane s (row + (i + 1) % 5))) &&& lane s (row + (i + 2) % 5))

def round (s : Array UInt64) (constant : UInt64) : Array UInt64 :=
  let t := chi (rhoPi (theta s))
  t.setIfInBounds 0 (lane t 0 ^^^ constant)

def permute (s : Array UInt64) : Array UInt64 := roundConstants.foldl round s

def rate : Nat := 136

/-- The message followed by its domain bits and padded to a whole block. -/
def pad (bytes : ByteArray) : ByteArray :=
  let short := rate - bytes.size % rate
  if short = 1 then bytes.push 0x86
  else (pushZeros (bytes.push 0x06) (short - 2)).push 0x80

def absorb (bytes : ByteArray) (s : Array UInt64) (block : Nat) : Array UInt64 :=
  permute ((Array.range 25).map fun i =>
    if i < 17 then lane s i ^^^ wordLE64 bytes (rate * block + 8 * i) else lane s i)

def digest (bytes : ByteArray) : String :=
  let padded := pad bytes
  let s := (List.range (padded.size / rate)).foldl (absorb padded) (Array.replicate 25 0)
  hex ((List.range 4).flatMap fun i => bytesLE64 (lane s i))

end TypeAtlas.Hash.Sha3
