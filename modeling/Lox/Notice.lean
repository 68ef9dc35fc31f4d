import Lox.Text.Style
import Lox.SyntaxError

/-!
# Notices

What is said to the user about an error or a warning: a message whose parts are highlighted, and
the piece of text it is about, a range of which can be pointed at.
-/

namespace Lox

/-- A part of a message: fixed words, or a slot for a subject. -/
inductive Piece where
  | words (text : String)
  | slot
  deriving DecidableEq, Repr

/-- A message with slots. -/
abbrev Template := List Piece

namespace Template

/-- The message with the subjects put into its slots in bold. -/
def fill (style : Text.Style) : Template → List String → String
  | [], _ => ""
  | .words text :: rest, subjects => text ++ fill style rest subjects
  | .slot :: rest, [] => fill style rest []
  | .slot :: rest, s :: subjects => style.bold s ++ fill style rest subjects

/-- The pieces of `cs`, in which an opening brace before a closing one is a slot; `word` are the
fixed characters before, in reverse order. -/
def ofChars (word : List Char) : List Char → Template
  | [] => [.words (String.ofList word.reverse)]
  | '\x7b' :: '\x7d' :: cs => .words (String.ofList word.reverse) :: .slot :: ofChars [] cs
  | c :: cs => ofChars (c :: word) cs

/-- Reads a message in which slots are written as a pair of braces. -/
def ofString (text : String) : Template := ofChars [] text.toList

end Template

/-- What is said about a piece of text, the subject. Models `GenericException`. -/
structure Notice where
  message : String
  subject : String
  /-- The range of the subject that is pointed at. -/
  start : Nat
  stop : Nat
  /-- Whether the range is pointed at. -/
  pointed : Bool
  /-- Whether the program that runs the user's program is to blame. -/
  internal : Bool
  deriving DecidableEq, Repr

/-- Which part of a notice's subject is pointed at, and who is to blame. -/
structure Emphasis where
  start : Nat := 0
  /-- The end of the range; the end of the subject if there is none. -/
  stop : Option Nat := none
  pointed : Bool := true
  internal : Bool := false
  deriving DecidableEq, Repr

namespace Notice

/-- A notice about the first of its subjects. Models `GenericException.__init__`. -/
def make (style : Text.Style) (template : Template) (subjects : List String)
    (emphasis : Emphasis) : Notice :=
  let subject := subjects.headD ""
  ⟨template.fill style subjects, subject, emphasis.start, emphasis.stop.getD subject.length,
    emphasis.pointed, emphasis.internal⟩

/-- A notice of fixed words. -/
def plain (style : Text.Style) (text : String) (emphasis : Emphasis) : Notice :=
  make style [.words text] [] emphasis

end Notice

/-- The causes of errors that a user's program or its source file can give rise to. -/
inductive Cause where
  | undefinedVariable | typeMismatch | invalidBinary | invalidUnary | unsupportedOperation
  | unsupportedTruthiness | wrongArity | expectedValue | divisionByZero | unreadableSource
  deriving DecidableEq, Repr

namespace Cause

/-- The message for a cause. -/
def template : Cause → Template
  | undefinedVariable => [.words "undefined variable '", .slot, .words "'"]
  | typeMismatch =>
    [.words "type mismatch: attempted to convert '", .slot, .words "' into '", .slot, .words "'"]
  | invalidBinary => [.words "invalid operator: ", .slot, .words " ", .slot, .words " ", .slot]
  | invalidUnary => [.words "invalid operator: ", .slot, .slot]
  | unsupportedOperation => [.words "unsupported operation: ", .slot]
  | unsupportedTruthiness =>
    [.words "unsupported truthiness: '", .slot, .words "' is neither true nor false"]
  | wrongArity =>
    [.words "invalid number of arguments, expected ", .slot, .words " arg(s), got ", .slot,
     .words " arg(s)"]
  | expectedValue => [.words "expected value"]
  | divisionByZero => [.words "division by zero: '", .slot, .words "' / 0"]
  | unreadableSource => [.words "'", .slot, .words "' could not be opened"]

/-- The notice for a cause; its subject is not pointed at. -/
def notice (style : Text.Style) (cause : Cause) (subjects : List String) : Notice :=
  Notice.make style cause.template subjects { pointed := false }

end Cause

/-- The notice of a syntax error points at the character where the source goes wrong. Models
`ParseError.__init__`. -/
def SyntaxError.notice (style : Text.Style) (e : SyntaxError) : Notice :=
  Notice.make style [.words "'", .slot, .words "' is not valid lox grammar"] [e.excerpt]
    { start := e.offset, stop := some (e.offset + 1) }

end Lox
