/-!
# Highlighting

Terminal highlighting of parts of a message. Where highlighting is off a part stays as it is.
-/

namespace Lox.Text

/-- Whether messages are highlighted. -/
inductive Style where
  | plain
  | highlighted
  deriving DecidableEq, Repr

/-- The colours that messages use. -/
inductive Tint where
  | red
  | magenta
  deriving DecidableEq, Repr

namespace Style

/-- Ends all highlighting. -/
def reset : String := "\x1b[0m"

/-- `text` in bold. -/
def bold : Style → String → String
  | .plain, text => text
  | .highlighted, text => "\x1b[1m" ++ text ++ reset

/-- Switches a colour on. -/
def switch : Tint → String
  | .red => "\x1b[31m"
  | .magenta => "\x1b[35m"

/-- `text` in bold and in a colour. -/
def tinted (style : Style) (tint : Tint) (text : String) : String :=
  match style with
  | .plain => text
  | .highlighted => "\x1b[1m" ++ switch tint ++ text ++ reset

end Style

end Lox.Text
