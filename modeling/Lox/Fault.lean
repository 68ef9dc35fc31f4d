import Lox.Notice
import Lox.Value

/-!
# Faults

The errors of a running program, one constructor for each cause.
-/

namespace Lox

/-- What the language has a form for but no meaning. -/
inductive Unsupported where
  | assignTarget
  | memberAccess
  deriving DecidableEq, Repr

/-- The construct in words. -/
def Unsupported.text : Unsupported → String
  | assignTarget => "only variables can be assigned to"
  | memberAccess => "member access"

/-- The errors of a running program. Models the classes of `GenericException` that evaluation
raises. -/
inductive Fault where
  | undefinedVariable (name : String)
  | typeMismatch (found : Value) (expected : String)
  | invalidBinary (lhs : Value) (op : String) (rhs : Value)
  | invalidUnary (op : UnaryOp) (operand : Value)
  | unsupportedOperation (what : Unsupported)
  | unsupportedTruthiness (v : Value)
  | wrongArity (expected actual : Nat)
  | expectedValue
  | divisionByZero (dividend : Value)
  /-- The last scope of an environment was to be left. -/
  | lastScope

namespace Fault

/-- The cause of a fault that a user's program can be blamed for. -/
def cause? : Fault → Option Cause
  | undefinedVariable _ => some .undefinedVariable
  | typeMismatch _ _ => some .typeMismatch
  | invalidBinary _ _ _ => some .invalidBinary
  | invalidUnary _ _ => some .invalidUnary
  | unsupportedOperation _ => some .unsupportedOperation
  | unsupportedTruthiness _ => some .unsupportedTruthiness
  | wrongArity _ _ => some .wrongArity
  | expectedValue => some .expectedValue
  | divisionByZero _ => some .divisionByZero
  | lastScope => none

/-- What the message of a fault speaks of. -/
def subjects : Fault → List String
  | undefinedVariable name => [name]
  | typeMismatch found expected => [found.text, expected]
  | invalidBinary lhs op rhs => [lhs.text, op, rhs.text]
  | invalidUnary op operand => [op.sign, operand.text]
  | unsupportedOperation what => [what.text]
  | unsupportedTruthiness v => [v.text]
  | wrongArity expected actual => [toString expected, toString actual]
  | divisionByZero dividend => [dividend.text]
  | expectedValue | lastScope => []

/-- Whether the message of a fault can be written out. -/
def isWritable : Fault → Bool
  | typeMismatch v _ | invalidUnary _ v | unsupportedTruthiness v | divisionByZero v => v.isWritable
  | invalidBinary lhs _ rhs => lhs.isWritable && rhs.isWritable
  | _ => true

/-- What is said about a fault. Models `__init__` of each class. -/
def notice (style : Text.Style) (f : Fault) : Notice :=
  match f.cause? with
  | some cause => cause.notice style f.subjects
  | none => Notice.plain style "attempted to pop the global scope" { internal := true }

end Fault

end Lox
