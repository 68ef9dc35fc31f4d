import Lox.Text.Blank

/-!
# Quoted text

A text between quotes, with escapes for what cannot be shown: the form in which a rejected
argument of the command line is shown back. Single quotes are used unless the text holds a single
quote and no double one.
-/

namespace Lox.Text

/-- `count` lower-case hexadecimal digits of `n`, most significant first. -/
def hexDigits : Nat → Nat → List Char
  | 0, _ => []
  | count + 1, n => hexDigits count (n / 16) ++ [Nat.digitChar (n % 16)]

/-- Whether `c` has a shape of its own on a screen: it is no control, format, separator, private or
unassigned code point, the plain space apart. -/
def isShown (c : Char) : Bool :=
  let n := c.toNat
  let between (lo hi : Nat) : Bool := decide (lo ≤ n) && decide (n ≤ hi)
  n = 0x20 || !(isBlank c || between 0x00 0x1F || between 0x7F 0x9F || n = 0xAD
    || between 0x600 0x605 || n = 0x61C || n = 0x6DD || n = 0x70F || n = 0x180E
    || between 0x200B 0x200F || between 0x202A 0x202E || between 0x2060 0x206F
    || between 0xE000 0xF8FF || n = 0xFEFF || between 0xFFF0 0xFFFB || between 0xFFFE 0xFFFF
    || 0xE0000 ≤ n)

/-- How `c` is written between two `quote`s. -/
def quotedChar (quote c : Char) : List Char :=
  if c = quote || c = '\\' then ['\\', c]
  else if c = '\n' then ['\\', 'n']
  else if c = '\r' then ['\\', 'r']
  else if c = '\t' then ['\\', 't']
  else if isShown c then [c]
  else if c.toNat < 0x100 then '\\' :: 'x' :: hexDigits 2 c.toNat
  else if c.toNat < 0x10000 then '\\' :: 'u' :: hexDigits 4 c.toNat
  else '\\' :: 'U' :: hexDigits 8 c.toNat

/-- The quote that `cs` is written between. -/
def quoteFor (cs : List Char) : Char :=
  if cs.contains '\'' && !cs.contains '"' then '"' else '\''

/-- `text` between quotes. -/
def quoted (text : String) : String :=
  let cs := text.toList
  let quote := quoteFor cs
  String.ofList (quote :: cs.flatMap (quotedChar quote) ++ [quote])

/-- Exactly the asked number of digits is written. -/
theorem length_hexDigits (count n : Nat) : (hexDigits count n).length = count := by
  induction count generalizing n with
  | zero => rfl
  | succ count ih => simp [hexDigits, ih]

end Lox.Text
