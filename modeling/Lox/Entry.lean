import Lox.Text.Blank

/-!
# Entries

Puts entered lines together to units. A unit is complete as soon as no brace or parenthesis of it
stands open; comments go, and so does white space at the end of a line.
-/

namespace Lox.Entry

/-- A line up to its comment. Two slashes within quotes begin none; `quoted` tells whether the line
begins within quotes. Models `_strip_comment`. -/
def stripComment (quoted : Bool) : List Char → List Char
  | [] => []
  | '"' :: cs => '"' :: stripComment (!quoted) cs
  | '/' :: '/' :: cs => if quoted then '/' :: stripComment quoted ('/' :: cs) else []
  | c :: cs => c :: stripComment quoted cs

/-- A line without its comment and without white space at its end. -/
def clean (line : List Char) : List Char := Text.trimEnd (stripComment false line)

/-- How many more braces and parentheses are opened than closed, outside of quotes. The count of
`_unbalanced`. -/
def openCount (quoted : Bool) : List Char → Int
  | [] => 0
  | c :: cs =>
    if c = '"' then openCount (!quoted) cs
    else if quoted then openCount quoted cs
    else if c = '(' || c = '\x7b' then openCount quoted cs + 1
    else if c = ')' || c = '\x7d' then openCount quoted cs - 1
    else openCount quoted cs

/-- Whether a unit goes on in the next line. Models `_unbalanced`. -/
def isOpen (unit : List Char) : Bool := decide (0 < openCount false unit)

/-- The unit that an unfinished unit and one more line give. -/
def extend (pending line : List Char) : List Char :=
  if pending.isEmpty then clean line else pending ++ '\n' :: clean line

/-- The unit with one more line, and whether it goes on in the next. Models
`Session.preprocess_line`. -/
def preprocess (line pending : String) : String × Bool :=
  let unit := extend pending.toList line.toList
  (String.ofList unit, isOpen unit)

end Lox.Entry
