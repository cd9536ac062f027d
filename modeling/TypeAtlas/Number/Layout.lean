import TypeAtlas.Number.Shortest

/-! # Number layouts

How a number is written out once its shortest digits are known. There are two layouts: one for
report text and one for JSON documents.
-/

namespace TypeAtlas

/-- The choices that fix the written form of a floating-point number. -/
structure FloatLayout where
  /-- The least and the greatest exponent of the first digit that are written positionally. -/
  lowest : Int
  highest : Int
  /-- The least number of digits of a written exponent. -/
  exponentWidth : Nat
  nan : String
  infinity : String
  negativeInfinity : String

/-- Report text writes exponents with two digits at least and names what is not finite. -/
def FloatLayout.report : FloatLayout := ⟨-4, 15, 2, "nan", "inf", "-inf"⟩

/-- JSON documents write exponents without padding and have no number that is not finite. -/
def FloatLayout.document : FloatLayout := ⟨-5, 15, 1, "null", "null", "null"⟩

def decimalDigits (n : Nat) : List Char := Nat.toDigits 10 n

def padded (width n : Nat) : List Char :=
  let ds := decimalDigits n
  List.replicate (width - ds.length) '0' ++ ds

/-- Digits whose point stands after the first `place` of them. -/
def positional (digits : List Char) (place : Int) : List Char :=
  if place ≤ 0 then '0' :: '.' :: List.replicate (-place).toNat '0' ++ digits
  else
    let n := place.toNat
    if digits.length ≤ n then digits ++ List.replicate (n - digits.length) '0' ++ ['.', '0']
    else digits.take n ++ '.' :: digits.drop n

/-- Digits with a point after the first, and the exponent of that first digit. -/
def scientific (width : Nat) (digits : List Char) (exponent : Int) : List Char :=
  let mantissa := match digits with
    | [] => []
    | [d] => [d]
    | d :: rest => d :: '.' :: rest
  mantissa ++ 'e' :: (if exponent < 0 then '-' else '+') :: padded width exponent.natAbs

def FloatLayout.writeDecimal (layout : FloatLayout) (d : Binary64.Decimal) : List Char :=
  let digits := decimalDigits d.digits
  let exponent := d.exponent + digits.length - 1
  if layout.lowest ≤ exponent && exponent ≤ layout.highest then positional digits (exponent + 1)
  else scientific layout.exponentWidth digits exponent

def FloatLayout.write (layout : FloatLayout) (x : Binary64) : String :=
  match x.reading with
  | .nan => layout.nan
  | .infinite negative => if negative then layout.negativeInfinity else layout.infinity
  | .finite negative m e =>
    let body := if m = 0 then ['0', '.', '0'] else layout.writeDecimal (Binary64.shortest m e)
    String.ofList (if negative then '-' :: body else body)

def writeInt (n : Int) : String :=
  String.ofList (if n < 0 then '-' :: decimalDigits n.natAbs else decimalDigits n.natAbs)

end TypeAtlas
