/-! # Binary floating point

Double-precision numbers by their 64 bits. Order, sums and rounding are defined on the exact
rational values, so nothing here depends on the arithmetic of a processor.
-/

namespace TypeAtlas

structure Binary64 where
  bits : UInt64
deriving DecidableEq, Inhabited, Repr

namespace Binary64

/-- What a bit pattern stands for. A finite number is `significand * 2 ^ exponent`. -/
inductive Reading where
  | nan
  | infinite (negative : Bool)
  | finite (negative : Bool) (significand : Nat) (exponent : Int)
deriving DecidableEq, Repr

def leastExponent : Int := -1074

/-- The bit above the fraction, which is set in every normal number but not stored. -/
def hiddenBit : Nat := Nat.pow 2 52

def signBit : Nat := Nat.pow 2 63

def reading (x : Binary64) : Reading :=
  let n := x.bits.toNat
  let negative := decide (signBit ≤ n)
  let exponent : Nat := n / hiddenBit % 2048
  let fraction : Nat := n % hiddenBit
  if exponent = 2047 then
    if fraction = 0 then .infinite negative else .nan
  else if exponent = 0 then .finite negative fraction leastExponent
  else .finite negative (fraction + hiddenBit) ((exponent : Int) - 1075)

def nan : Binary64 := ⟨0x7ff8000000000000⟩

def infinity (negative : Bool) : Binary64 :=
  ⟨if negative then 0xfff0000000000000 else 0x7ff0000000000000⟩

def isFinite (x : Binary64) : Bool :=
  match x.reading with
  | .finite .. => true
  | _ => false

structure Fraction where
  num : Int
  den : Nat
deriving DecidableEq, Repr

def fraction? (x : Binary64) : Option Fraction :=
  match x.reading with
  | .finite negative m e =>
    let sign : Int := if negative then -1 else 1
    if 0 ≤ e then some ⟨sign * (m * Nat.pow 2 e.toNat : Nat), 1⟩
    else some ⟨sign * (m : Int), Nat.pow 2 (-e).toNat⟩
  | _ => none

/-- The quotient rounded to the nearest integer, a half to the even neighbour. -/
def divideToEven (num den : Nat) : Nat :=
  let q := num / den
  let r := num % den
  if 2 * r < den then q
  else if den < 2 * r then q + 1
  else if q % 2 = 0 then q else q + 1

/-- The exponent at which a positive quotient has 53 significant bits, unless it is too small. -/
def roundingExponent (num den : Nat) : Int :=
  let k : Int := (num.log2 : Int) - den.log2
  let below : Bool :=
    if 0 ≤ k then decide (num < den * Nat.pow 2 k.toNat)
    else decide (num * Nat.pow 2 (-k).toNat < den)
  max (if below then k - 53 else k - 52) leastExponent

/-- The number nearest to a quotient with the given sign. -/
def ofQuotient (negative : Bool) (num den : Nat) : Binary64 :=
  let sign : Nat := if negative then signBit else 0
  if num = 0 || den = 0 then ⟨.ofNat sign⟩
  else
    let e := roundingExponent num den
    let m := if 0 ≤ e then divideToEven num (den * Nat.pow 2 e.toNat)
      else divideToEven (num * Nat.pow 2 (-e).toNat) den
    let magnitude := (e - leastExponent).toNat * hiddenBit + m
    if 0x7ff0000000000000 ≤ magnitude then infinity negative else ⟨.ofNat (sign + magnitude)⟩

/-- The number nearest to `digits * 10 ^ exponent`. Exponents far out of range are cut off first. -/
def ofDecimal (negative : Bool) (digits : Nat) (exponent : Int) : Binary64 :=
  let size : Int := digits.log2
  if digits = 0 then ofQuotient negative 0 1
  else if 400 < exponent then infinity negative
  else if exponent + size < -1500 then ofQuotient negative 0 1
  else if 0 ≤ exponent then ofQuotient negative (digits * Nat.pow 10 exponent.toNat) 1
  else ofQuotient negative digits (Nat.pow 10 (-exponent).toNat)

def ofInt (n : Int) : Binary64 := ofQuotient (decide (n < 0)) n.natAbs 1

def toInt? (x : Binary64) : Option Int :=
  match x.fraction? with
  | some ⟨num, den⟩ => if num % den = 0 then some (num / den) else none
  | none => none

def isNegative (x : Binary64) : Bool := decide (signBit ≤ x.bits.toNat)

def add (x y : Binary64) : Binary64 :=
  match x.reading, y.reading with
  | .nan, _ => nan
  | _, .nan => nan
  | .infinite a, .infinite b => if a = b then x else nan
  | .infinite _, _ => x
  | _, .infinite _ => y
  | _, _ =>
    match x.fraction?, y.fraction? with
    | some ⟨a, b⟩, some ⟨c, d⟩ =>
      let num := a * d + c * b
      if num = 0 then ofQuotient (x.isNegative && y.isNegative) 0 1
      else ofQuotient (decide (num < 0)) num.natAbs (b * d)
    | _, _ => nan

def Fraction.compare (a b : Fraction) : Ordering :=
  Ord.compare (a.num * (b.den : Int)) (b.num * (a.den : Int))

end Binary64

end TypeAtlas
