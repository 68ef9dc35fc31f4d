import Lox.Text.Digit

/-!
# Text of integers

Integers are unbounded, but a text of one may have at most 4300 digits, both when it is read and
when it is written.
-/

namespace Lox.Decimal

/-- The largest number of digits that the text of an integer may have. -/
def maxDigits : Nat := 4300

/-- The least number whose text is too long. -/
def unwritable : Nat := Nat.pow 10 maxDigits

/-- Whether `n` has at most `maxDigits` digits. -/
def isWritable (n : Int) : Bool := decide (n.natAbs < unwritable)

/-- The text of `n`, unless it is too long. -/
def whole? (n : Int) : Option String := if isWritable n then some (toString n) else none

/-- Why a text is no integer. -/
inductive WholeError where
  /-- It has more than `maxDigits` digits. -/
  | tooLong (digits : Nat)
  /-- It holds something else than digits, or nothing. -/
  | noNumber
  deriving DecidableEq, Repr

/-- The number that the digits `cs` write; leading zeros count as digits. -/
def readWhole (cs : List Char) : Except WholeError Nat :=
  if cs.isEmpty || !cs.all Text.isDigit then .error .noNumber
  else if maxDigits < cs.length then .error (.tooLong cs.length)
  else .ok (Text.digitsValue cs)

/-- The limit in words. -/
def limitText : String := "Exceeds the limit (4300 digits) for integer string conversion"

/-- What can be done about the limit. -/
def limitAdvice : String := "; use sys.set_int_max_str_digits() to increase the limit"

/-- What is said when an integer is too long to be written. -/
def unwritableText : String := limitText ++ limitAdvice

/-- What is said when a text of that many digits is too long to be read. -/
def tooLongText (digits : Nat) : String :=
  limitText ++ ": value has " ++ toString digits ++ " digits" ++ limitAdvice

/-- Reading fails for length exactly above the limit. -/
theorem readWhole_eq_tooLong_iff {cs : List Char} (h : ∀ c ∈ cs, Text.isDigit c = true)
    (n : Nat) : readWhole cs = .error (.tooLong n) ↔ maxDigits < cs.length ∧ n = cs.length := by
  have hall : cs.all Text.isDigit = true := List.all_eq_true.2 h
  by_cases hl : maxDigits < cs.length
  · have hne : cs.isEmpty = false := by
      cases cs with
      | nil => simp [maxDigits] at hl
      | cons _ _ => rfl
    simp [readWhole, hall, hne, hl, eq_comm]
  · cases hc : cs.isEmpty <;> simp [readWhole, hall, hc, hl]

end Lox.Decimal
