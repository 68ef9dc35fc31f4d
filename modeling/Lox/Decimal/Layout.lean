import Lox.Decimal.Shortest
import Lox.Text.Digit

/-!
# Text of doubles

Writing a double with its shortest digits, and reading such a text back. The form is positional for
decimal exponents from -4 to 15 and scientific outside, and a positional number always shows a
fraction.
-/

namespace Lox.Decimal

/-- The choices of a written form of doubles. -/
structure Layout where
  /-- The least decimal exponent of the first digit that is written positionally. -/
  leastPositional : Int
  /-- The least decimal exponent above that which is written scientifically. -/
  leastScientific : Int
  /-- What follows the digits of a positional number without fraction. -/
  wholeMark : String
  /-- The mark before an exponent. -/
  exponentMark : String
  /-- The least number of digits of an exponent. -/
  exponentDigits : Nat
  /-- The name of infinity; a sign stands before it as before a number. -/
  infinity : String
  /-- The name of a value that is no number. -/
  notANumber : String

/-- A whole number ends in a point and a zero, and an exponent has a sign and two digits at
least. -/
def Layout.standard : Layout := ⟨-4, 16, ".0", "e", 2, "inf", "nan"⟩

/-- `digits` in base ten, without the zeros at its end. -/
def significant (digits : Nat) : List Char :=
  ((Nat.toDigits 10 digits).reverse.dropWhile (· == '0')).reverse

/-- `n` with zeros in front until it has `width` digits. -/
def padded (width n : Nat) : String :=
  let cs := Nat.toDigits 10 n
  String.ofList (List.replicate (width - cs.length) '0' ++ cs)

/-- The text of the decimal `d`. -/
def Layout.digits (l : Layout) (d : Digits) : String :=
  let cs := significant d.digits
  let first := d.exponent + ((Nat.toDigits 10 d.digits).length : Int) - 1
  if l.leastPositional ≤ first && first < l.leastScientific then
    if first < 0 then
      "0." ++ String.ofList (List.replicate (-first - 1).toNat '0' ++ cs)
    else
      let whole := first.toNat + 1
      if cs.length ≤ whole then
        String.ofList (cs ++ List.replicate (whole - cs.length) '0') ++ l.wholeMark
      else
        String.ofList (cs.take whole) ++ "." ++ String.ofList (cs.drop whole)
  else
    let head := String.ofList (cs.take 1)
    let tail := if cs.length ≤ 1 then "" else "." ++ String.ofList (cs.drop 1)
    let sign := if first < 0 then "-" else "+"
    head ++ tail ++ l.exponentMark ++ sign ++ padded l.exponentDigits first.natAbs

/-- The text of a double. -/
def Layout.double (l : Layout) (x : Float) : String :=
  let bits := x.toBits.toNat
  let sign := if bits < Nat.pow 2 63 then "" else "-"
  let magnitude := bits % Nat.pow 2 63
  if infinityBits < magnitude then l.notANumber
  else if magnitude = infinityBits then sign ++ l.infinity
  else if magnitude = 0 then sign ++ "0" ++ l.wholeMark
  else sign ++ l.digits (shortest magnitude)

/-- The text of a double in the standard layout. -/
def doubleText (x : Float) : String := Layout.standard.double x

/-- The double that digits with a point between `whole` and `fraction` write. -/
def ofPoint (whole fraction : List Char) (exponent : Int) : Float :=
  toDouble (Text.digitsValue (whole ++ fraction)) (exponent - fraction.length)

/-- Reads digits, of which there is at least one. -/
def digits? (cs : List Char) : Option Nat :=
  if cs.isEmpty || !cs.all Text.isDigit then none else some (Text.digitsValue cs)

/-- Reads an exponent with its mark; one that is left out is zero. -/
def exponent? : List Char → Option Int
  | [] => some 0
  | mark :: cs =>
    if mark = 'e' || mark = 'E' then
      match cs with
      | '-' :: ds => (digits? ds).map fun n => -(n : Int)
      | '+' :: ds => (digits? ds).map Int.ofNat
      | ds => (digits? ds).map Int.ofNat
    else none

/-- The digits of a fraction at the front of `cs`, and what follows it. -/
def splitFraction : List Char → List Char × List Char
  | '.' :: cs => (cs.takeWhile Text.isDigit, cs.dropWhile Text.isDigit)
  | cs => ([], cs)

/-- Reads digits, an optional fraction and an optional exponent. -/
def unsigned? (cs : List Char) : Option Float :=
  let whole := cs.takeWhile Text.isDigit
  let (fraction, rest) := splitFraction (cs.dropWhile Text.isDigit)
  if whole.isEmpty && fraction.isEmpty then none
  else (exponent? rest).map (ofPoint whole fraction)

/-- The double that `text` writes, positionally or scientifically, or by the name of a value that
is no number. -/
def double? (text : String) : Option Float :=
  let magnitude? (cs : List Char) : Option Float :=
    if cs = "inf".toList then some (Float.ofBits (UInt64.ofNat infinityBits))
    else if cs = "nan".toList then some (Float.ofBits 0x7FF8000000000000)
    else unsigned? cs
  match text.toList with
  | '-' :: cs => (magnitude? cs).map (- ·)
  | '+' :: cs => magnitude? cs
  | cs => magnitude? cs

end Lox.Decimal
