import Lox.Decimal.Whole
import Lox.Notice
import Lox.Operator
import Lox.Precedence

/-!
# Defects of trees

Why a parse tree has no program. The trees of source texts have one defect only, an integer literal
that is too long; the others blame the tree.
-/

namespace Lox

/-- Why a tree has no program. -/
inductive Defect where
  /-- A node or leaf of this name stands where another is needed. -/
  | unexpected (label : String)
  /-- A token of this name stands where an infix operator is needed. -/
  | noInfix (label : String)
  /-- A token of this name writes no operator that computes a value. -/
  | noBinary (label : String)
  /-- A token of this name stands where a prefix operator is needed. -/
  | noPrefix (label : String)
  /-- A child is missing. -/
  | missing
  /-- A node has the wrong number or sort of children. -/
  | misshapen
  /-- An integer literal has this many digits, which is too many. -/
  | longInteger (digits : Nat)
  deriving DecidableEq, Repr

namespace Defect

/-- What is said about a defect that is blamed on the tree by name. Models the errors of `_defect`,
`PrecClimber.precedence`, `BinaryOperator.from_token` and `UnaryOperator.from_token`. -/
def notice? (style : Text.Style) (d : Defect) : Option Notice :=
  let make (template : Template) (label : String) :=
    some (Notice.make style template [label] { internal := true })
  match d with
  | unexpected label => make [.words "grammar produced unexpected '", .slot, .words "'"] label
  | noInfix label => make [.words "'", .slot, .words "' is not a known infix operator"] label
  | noBinary label => make [.words "'", .slot, .words "' is not a binary operator"] label
  | noPrefix label => make [.words "'", .slot, .words "' is not a unary operator"] label
  | missing | misshapen | longInteger _ => none

end Defect

/-- The defect of a sequence that cannot be grouped, where `name` names the operators. -/
def PrecedenceError.defect {κ : Type} (name : κ → String) : PrecedenceError κ → Defect
  | unknown k => .noInfix (name k)
  | missingOperand => .missing

/-- The infix operator that a token of this kind writes. Models `BinaryOperator.from_token`. -/
def BinaryOp.read (k : Kind) : Except Defect BinaryOp :=
  match ofKind? k with
  | some op => .ok op
  | none => .error (.noBinary k.name)

/-- The prefix operator that a token of this kind writes. Models `UnaryOperator.from_token`. -/
def UnaryOp.read (k : Kind) : Except Defect UnaryOp :=
  match ofKind? k with
  | some op => .ok op
  | none => .error (.noPrefix k.name)

end Lox
