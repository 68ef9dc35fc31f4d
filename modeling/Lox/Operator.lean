import Lox.Token

/-!
# Operators

The prefix and infix operators and the token kinds that write them. An exclamation mark and a tilde
write the same prefix operator.
-/

namespace Lox

/-- Prefix operators. Models `UnaryOperator`. -/
inductive UnaryOp where
  | not | minus
  deriving DecidableEq, Repr

/-- Infix operators that compute a value. Models `BinaryOperator`. -/
inductive BinaryOp where
  | plus | minus | times | divide | gt | ge | lt | le | eq | ne | and | or
  deriving DecidableEq, Repr

/-- Everything that can stand between two operands. -/
inductive Infix where
  | binary (op : BinaryOp)
  | access
  | assign
  deriving DecidableEq, Repr

namespace UnaryOp

/-- The operator as it is written. -/
def sign : UnaryOp → String
  | not => "!"
  | minus => "-"

/-- The operator that a token of this kind writes. Models `TOKENS`. -/
def ofKind? : Kind → Option UnaryOp
  | .bang | .tilde => some not
  | .minus => some minus
  | _ => none

end UnaryOp

namespace BinaryOp

/-- The operator as it is written. -/
def sign : BinaryOp → String
  | plus => "+" | minus => "-" | times => "*" | divide => "/"
  | gt => ">" | ge => ">=" | lt => "<" | le => "<=" | eq => "==" | ne => "!="
  | and => "and" | or => "or"

/-- The operator that a token of this kind writes. Models `TOKENS`. -/
def ofKind? : Kind → Option BinaryOp
  | .plus => some plus | .minus => some minus | .times => some times | .divide => some divide
  | .greater => some gt | .greaterEqual => some ge | .lower => some lt | .lowerEqual => some le
  | .equal => some eq | .notEqual => some ne | .and => some and | .or => some or
  | _ => none

end BinaryOp

namespace Infix

/-- What a token of this kind means between two operands. The choice of `build_infix`. -/
def ofKind? (k : Kind) : Option Infix :=
  match BinaryOp.ofKind? k with
  | some op => some (binary op)
  | none =>
    match k with
    | .dot => some access
    | .assign => some assign
    | _ => none

end Infix

end Lox
