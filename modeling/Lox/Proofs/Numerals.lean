import Mathlib.Data.List.Basic
import Mathlib.Data.List.Induction
import Lox.Decimal.Whole

/-!
# Numerals

The decimal text of a natural number is read back as that number, if it is not too long to be read.
-/

namespace Lox

namespace Text

/-- The digits of ASCII count from the code point of zero. -/
theorem digit?_of_isDigit {c : Char} (h : c.isDigit = true) :
    digit? c = some (c.toNat - '0'.toNat) := by
  have hrange : '0'.toNat ≤ c.toNat ∧ c.toNat ≤ '0'.toNat + 9 := by
    rw [Char.isDigit, Bool.and_eq_true] at h
    exact ⟨UInt32.le_iff_toNat_le.1 (of_decide_eq_true h.1),
      UInt32.le_iff_toNat_le.1 (of_decide_eq_true h.2)⟩
  have hzero : (decide ('0'.toNat ≤ c.toNat) && decide (c.toNat ≤ '0'.toNat + 9)) = true := by
    rw [decide_eq_true hrange.1, decide_eq_true hrange.2, Bool.and_self]
  rw [digit?, digitZeros, List.find?_cons]
  change Option.map _ (match decide ('0'.toNat ≤ c.toNat) && decide (c.toNat ≤ '0'.toNat + 9) with
    | true => some '0'.toNat
    | false => _) = _
  rw [hzero]
  rfl

/-- A decimal text of digits of ASCII has the value that it has in any other reading. -/
theorem digitsValue_eq_ofDigitChars {cs : List Char} (h : ∀ c ∈ cs, c.isDigit = true) :
    digitsValue cs = Nat.ofDigitChars 10 cs 0 := by
  rw [digitsValue, Nat.ofDigitChars_eq_foldl]
  refine List.foldl_ext _ _ 0 fun n c hc => ?_
  rw [digit?_of_isDigit (h c hc), Option.getD_some]

/-- Digits write a number below the power of ten with as many zeros. -/
theorem digitsValue_lt (cs : List Char) : digitsValue cs < Nat.pow 10 cs.length := by
  induction cs using List.reverseRecOn with
  | nil => exact Nat.one_pos
  | append_singleton cs c ih =>
    have hdigit : (digit? c).getD 0 ≤ 9 := by
      cases hc : digit? c with
      | none => exact Nat.zero_le 9
      | some d => exact digit?_le hc
    have hpow : Nat.pow 10 (cs ++ [c]).length = Nat.pow 10 cs.length * 10 := by
      rw [List.length_append]
      exact Nat.pow_succ 10 cs.length
    rw [digitsValue_concat, hpow]
    omega

end Text

namespace Decimal

/-- The text of a natural number has nothing but digits. -/
theorem isDigit_of_mem_toString {n : Nat} {c : Char} (h : c ∈ (toString n).toList) :
    Text.isDigit c = true := by
  rw [Nat.toString_eq_repr, Nat.toList_repr] at h
  rw [Text.isDigit, Text.digit?_of_isDigit (Nat.isDigit_of_mem_toDigits (by omega) (by omega) h)]
  rfl

/-- The text of a natural number has a digit. -/
theorem toList_toString_ne_nil (n : Nat) : (toString n).toList ≠ [] := by
  rw [Nat.toString_eq_repr, Nat.toList_repr]
  exact Nat.toDigits_ne_nil

private theorem length_toDigits_le {n k : Nat} (hk : 0 < k) (h : n < Nat.pow 10 k) :
    (Nat.toDigits 10 n).length ≤ k := (Nat.length_toDigits_le_iff (by omega) hk).2 h

/-- The text of a natural number has its value. -/
theorem digitsValue_toString (n : Nat) : Text.digitsValue (toString n).toList = n := by
  rw [Nat.toString_eq_repr, Nat.toList_repr, Text.digitsValue_eq_ofDigitChars,
    Nat.ofDigitChars_ten_toDigits]
  exact fun c hc => Nat.isDigit_of_mem_toDigits (by omega) (by omega) hc

/-- A number is read back from its text if the text is not too long. -/
theorem readWhole_toString {n : Nat} (h : n < unwritable) :
    readWhole (toString n).toList = .ok n := by
  have hdigits : (toString n).toList.all Text.isDigit = true :=
    List.all_eq_true.2 fun _ hc => isDigit_of_mem_toString hc
  have hempty : (toString n).toList.isEmpty = false :=
    List.isEmpty_eq_false_iff.2 (toList_toString_ne_nil n)
  have hlength : ¬maxDigits < (toString n).toList.length := by
    unfold unwritable at h
    rw [Nat.toString_eq_repr, Nat.toList_repr, Nat.not_lt]
    exact length_toDigits_le (by decide) h
  rw [readWhole, hempty, hdigits, if_neg (by simp), if_neg hlength, digitsValue_toString]

private theorem digitsValue_lt_pow {cs : List Char} {k : Nat} (h : cs.length ≤ k) :
    Text.digitsValue cs < Nat.pow 10 k :=
  Nat.lt_of_lt_of_le (Text.digitsValue_lt cs) (Nat.pow_le_pow_right (by omega) h)

/-- A number that is read can be written. -/
theorem isWritable_of_readWhole {cs : List Char} {n : Nat} (h : readWhole cs = .ok n) :
    isWritable n = true := by
  rw [readWhole] at h
  split at h
  · cases h
  split at h
  · cases h
  · rename_i hlength
    obtain rfl := Except.ok.inj h
    unfold isWritable unwritable
    rw [decide_eq_true_eq, Int.natAbs_natCast]
    exact digitsValue_lt_pow (Nat.le_of_not_lt hlength)

end Decimal

end Lox
