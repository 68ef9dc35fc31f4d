/-!
# Doubles as exact numbers

A finite double is an integer times a power of two. Here a positive fraction is rounded to the
nearest double, and a positive double is taken apart again, both on natural numbers only.
-/

namespace Lox.Decimal

/-- `num / den` rounded to the nearest natural number; a half goes to the even neighbour. -/
def roundDiv (num den : Nat) : Nat :=
  let q := num / den
  let r := 2 * (num % den)
  if r < den then q else if den < r then q + 1 else q + q % 2

/-- `n` times two to the power `e`, as a fraction: the factor goes to the numerator or to the
denominator. -/
def scaled (num den : Nat) (e : Int) : Nat × Nat :=
  (num * Nat.pow 2 e.toNat, den * Nat.pow 2 (-e).toNat)

/-- The largest `e` with `2 ^ e * den ≤ num`, for positive `num` and `den`. -/
def floorLog2 (num den : Nat) : Int :=
  let e := (num.log2 : Int) - den.log2
  let f := scaled num den (-e)
  if f.2 ≤ f.1 then e else e - 1

/-- The bits of positive infinity; those of every finite positive double are smaller. -/
def infinityBits : Nat := 0x7FF0000000000000

/-- The bits of the double nearest to `num / den`, with 53 binary digits where the exponent allows;
a number beyond the largest double becomes infinity. -/
def nearestBits (num den : Nat) : Nat :=
  if num = 0 then 0
  else
    let q := max (floorLog2 num den - 52) (-1074)
    let f := scaled num den (-q)
    min ((q + 1074).toNat * Nat.pow 2 52 + roundDiv f.1 f.2) infinityBits

/-- The double nearest to `digits` times ten to the power `e`. -/
def toDouble (digits : Nat) (e : Int) : Float :=
  let bits := nearestBits (digits * Nat.pow 10 e.toNat) (Nat.pow 10 (-e).toNat)
  Float.ofBits (UInt64.ofNat bits)

/-- A positive finite double: `mantissa` times two to the power `exponent`. -/
structure Parts where
  mantissa : Nat
  exponent : Int
  deriving DecidableEq, Repr

/-- The number with these bits, the sign bit being clear. -/
def Parts.ofBits (bits : Nat) : Parts :=
  let biased : Nat := bits / Nat.pow 2 52
  let fraction : Nat := bits % Nat.pow 2 52
  if biased = 0 then ⟨fraction, -1074⟩ else ⟨fraction + Nat.pow 2 52, (biased : Int) - 1075⟩

/-- Rounding stays within half a unit. -/
theorem roundDiv_near {num den : Nat} (h : 0 < den) :
    2 * (roundDiv num den * den) ≤ 2 * num + den ∧
      2 * num ≤ 2 * (roundDiv num den * den) + den := by
  have hm := Nat.div_add_mod num den
  have hlt := Nat.mod_lt num h
  have hc : num / den * den = den * (num / den) := Nat.mul_comm _ _
  unfold roundDiv
  simp only
  split
  · omega
  · split
    · rw [Nat.add_mul]
      omega
    · have : num / den % 2 < 2 := Nat.mod_lt _ (by omega)
      rw [Nat.add_mul]
      rcases Nat.lt_or_ge (num / den % 2) 1 with h1 | h1
      · have : num / den % 2 = 0 := by omega
        rw [this]
        omega
      · have : num / den % 2 = 1 := by omega
        rw [this]
        omega

end Lox.Decimal
