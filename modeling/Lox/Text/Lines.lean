/-!
# Lines of a text

A text is cut into lines for display at every line boundary that Unicode knows, while positions
in it count the line feed alone.
-/

namespace Lox.Text

/-- The code points at which a line of display ends. -/
def lineEnds : List Nat := [0x0A, 0x0B, 0x0C, 0x0D, 0x1C, 0x1D, 0x1E, 0x85, 0x2028, 0x2029]

/-- Whether a line of display ends at `c`. -/
def isLineEnd (c : Char) : Bool := lineEnds.contains c.toNat

/-- Puts `c` in front of the first line. -/
def consFirst (c : Char) : List (List Char) → List (List Char)
  | [] => [[c]]
  | line :: lines => (c :: line) :: lines

/-- The lines of display, without their ends; a carriage return and the line feed after it are one
end, and an end that closes the text opens no further line. -/
def lines : List Char → List (List Char)
  | [] => []
  | '\r' :: '\n' :: cs => [] :: lines cs
  | c :: cs => if isLineEnd c then [] :: lines cs else consFirst c (lines cs)

/-- The text with every carriage return, alone or before a line feed, turned into a line feed. -/
def unifyLineEnds : List Char → List Char
  | [] => []
  | '\r' :: '\n' :: cs => '\n' :: unifyLineEnds cs
  | c :: cs => (if c = '\r' then '\n' else c) :: unifyLineEnds cs

/-- A text with no line end in it is one line. -/
theorem lines_of_forall {cs : List Char} (hne : cs ≠ []) (h : ∀ c ∈ cs, isLineEnd c = false) :
    lines cs = [cs] := by
  induction cs with
  | nil => exact absurd rfl hne
  | cons c cs ih =>
    have hc := h c (by simp)
    have hr : c ≠ '\r' := by rintro rfl; exact absurd hc (by decide)
    have hcs : ∀ d ∈ cs, isLineEnd d = false := fun d hd => h d (by simp [hd])
    rw [lines]
    · cases cs with
      | nil => simp [hc, lines, consFirst]
      | cons d ds => simp [hc, ih (by simp) hcs, consFirst]
    · rintro ds rfl -
      exact hr rfl

end Lox.Text
