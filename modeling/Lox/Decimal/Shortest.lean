import Lox.Decimal.Double

/-!
# Shortest decimals

The fewest decimal digits that read back as the same double. For one, two, … digits in turn the two
neighbours of the number on that decimal grid are tested against the interval of numbers that round
to the double; the first grid with a hit gives the digits, the nearer of two hits is taken, and an
exact tie goes to the even one.
-/

namespace Lox.Decimal

/-- A decimal: `digits` times ten to the power `exponent`. -/
structure Digits where
  digits : Nat
  exponent : Int
  deriving DecidableEq, Repr

/-- The numbers that round to one double, with the double itself, as fractions over `den`; the ends
count when `closed` holds. -/
structure Interval where
  low : Nat
  value : Nat
  high : Nat
  den : Nat
  closed : Bool
  deriving DecidableEq, Repr

/-- The interval of the double with these parts. Below a power of two the neighbour is only half as
far away. -/
def Interval.ofParts (p : Parts) : Interval :=
  let below := if p.mantissa = Nat.pow 2 52 && decide (-1074 < p.exponent) then 1 else 2
  let unit := scaled 1 4 p.exponent
  ⟨(4 * p.mantissa - below) * unit.1, 4 * p.mantissa * unit.1, (4 * p.mantissa + 2) * unit.1,
    unit.2, p.mantissa % 2 = 0⟩

/-- Whether `num / den` lies in the interval. -/
def Interval.holds (i : Interval) (num den : Nat) : Bool :=
  if i.closed then
    decide (i.low * den ≤ num * i.den) && decide (num * i.den ≤ i.high * den)
  else
    decide (i.low * den < num * i.den) && decide (num * i.den < i.high * den)

/-- The largest `e` with `10 ^ e * den ≤ num`, for positive `num` and `den`. -/
def floorLog10 (num den : Nat) : Int :=
  let reaches (e : Int) : Bool :=
    decide (Nat.pow 10 e.toNat * den ≤ num * Nat.pow 10 (-e).toNat)
  let e := (((num.log2 : Int) - den.log2) * 30103).fdiv 100000
  if reaches (e + 1) then e + 1 else if reaches e then e else e - 1

/-- The neighbour of the number on the grid of ten to the power `e` that reads back: the nearer one
if both do, the even one at a tie. -/
def Interval.onGrid? (i : Interval) (e : Int) : Option Nat :=
  let num := i.value * Nat.pow 10 (-e).toNat
  let den := i.den * Nat.pow 10 e.toNat
  let down := num / den
  let reads (n : Nat) : Bool := i.holds (n * Nat.pow 10 e.toNat) (Nat.pow 10 (-e).toNat)
  let twice := 2 * (num % den)
  let nearer := if twice < den then down else if den < twice then down + 1 else down + down % 2
  let farther := if nearer = down then down + 1 else down
  if reads nearer then some nearer else if reads farther then some farther else none

/-- The digits of a positive finite double with these bits. Seventeen digits always suffice. -/
def shortest (bits : Nat) : Digits :=
  let i := Interval.ofParts (Parts.ofBits bits)
  let top := floorLog10 i.value i.den
  let found := (List.range 17).findSome? fun (k : Nat) =>
    let e := top - k
    (i.onGrid? e).map fun digits => Digits.mk digits e
  found.getD ⟨0, 0⟩

end Lox.Decimal
