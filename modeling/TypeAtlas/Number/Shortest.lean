import TypeAtlas.Number.Binary64

/-! # Shortest decimals

The fewest decimal digits that read back as a given number and, of those with that many digits, the
ones nearest to it. A tie goes to the even digit.
-/

namespace TypeAtlas.Binary64

/-- Decimal digits `digits`, standing for `digits * 10 ^ exponent`. -/
structure Decimal where
  digits : Nat
  exponent : Int
deriving DecidableEq, Repr

/-- The reals that round to `significand * 2 ^ exponent`, in units of `2 ^ (exponent - 2)`. -/
structure Neighbourhood where
  low : Nat
  value : Nat
  high : Nat
  closed : Bool

def neighbourhood (m : Nat) (e : Int) : Neighbourhood where
  low := if m = hiddenBit && leastExponent < e then 4 * m - 1 else 4 * m - 2
  value := 4 * m
  high := 4 * m + 2
  closed := m % 2 = 0

def Neighbourhood.holds (n : Neighbourhood) (num den : Nat) : Bool :=
  if n.closed then decide (n.low * den ≤ num) && decide (num ≤ n.high * den)
  else decide (n.low * den < num) && decide (num < n.high * den)

/-- A power of ten times a power of two, as a quotient. -/
def scale (ten two : Int) : Nat × Nat :=
  ((if 0 ≤ ten then Nat.pow 10 ten.toNat else 1) * (if 0 ≤ two then Nat.pow 2 two.toNat else 1),
    (if 0 ≤ ten then 1 else Nat.pow 10 (-ten).toNat) *
      (if 0 ≤ two then 1 else Nat.pow 2 (-two).toNat))

/-- The nearest multiple of `10 ^ place` in the neighbourhood of a number, counted in that unit. -/
def onGrid? (n : Neighbourhood) (e place : Int) : Option Nat :=
  let (up, down) := scale (-place) (e - 2)
  let num := n.value * up
  let below := num / down
  let twice := 2 * (num % down)
  let inside (k : Nat) : Bool := n.holds (k * down) up
  let nearer := if twice < down then below
    else if down < twice then below + 1
    else if below % 2 = 0 then below else below + 1
  let other := if nearer = below then below + 1 else below
  if inside nearer then some nearer
  else if inside other then some other
  else none

/-- The least power of ten above `num / den`. -/
def decimalMagnitude (num den : Nat) : Int :=
  let guess : Int := Int.fdiv (((num.log2 : Int) - den.log2) * 30103) 100000 - 1
  let above (k : Int) : Bool :=
    let (up, down) := scale k 0
    decide (num * down < up * den)
  if above guess then guess
  else if above (guess + 1) then guess + 1
  else if above (guess + 2) then guess + 2
  else guess + 3

def Decimal.strip : Nat → Decimal → Decimal
  | 0, d => d
  | fuel + 1, d =>
    if d.digits ≠ 0 && d.digits % 10 = 0 then strip fuel ⟨d.digits / 10, d.exponent + 1⟩ else d

/-- The first of the given digit counts at which a grid meets the neighbourhood. -/
def firstGrid? (n : Neighbourhood) (e magnitude : Int) : List Nat → Option Decimal
  | [] => none
  | count :: rest =>
    let place := magnitude - count
    match onGrid? n e place with
    | some digits => some (Decimal.strip 20 ⟨digits, place⟩)
    | none => firstGrid? n e magnitude rest

def shortest (m : Nat) (e : Int) : Decimal :=
  let (up, down) := scale 0 e
  let magnitude := decimalMagnitude (m * up) down
  match firstGrid? (neighbourhood m e) e magnitude (List.range' 1 17) with
  | some d => d
  | none => ⟨m * up / down, 0⟩

end TypeAtlas.Binary64
