import Lox.Operator

/-!
# Syntax

Programs as trees of statements and expressions. A program and a block are both lists of
statements. A `for` loop has no form of its own: it is a block with a `loop` in it.
-/

namespace Lox

/-- The functions that exist in every program. -/
inductive Builtin where
  | abs | min | max
  deriving DecidableEq, Repr

namespace Builtin

/-- All of them. Models `builtins`. -/
def all : List Builtin := [abs, min, max]

/-- The name under which it is called. -/
def name : Builtin → String
  | abs => "abs" | min => "min" | max => "max"

/-- The names of its parameters. -/
def params : Builtin → List String
  | abs => ["x"]
  | min | max => ["a", "b"]

end Builtin

/-- A value that is written out in a program. -/
inductive Literal where
  | int (n : Int)
  | float (x : Float)
  | str (s : String)
  | bool (b : Bool)
  | unit

/-- Expressions. Models `Expr` and its classes. -/
inductive Expr where
  | literal (l : Literal)
  | name (x : String)
  | unary (op : UnaryOp) (operand : Expr)
  | binary (op : BinaryOp) (lhs rhs : Expr)
  | access (lhs rhs : Expr)
  | assign (target value : Expr)
  | call (callee : String) (args : List Expr)
  /-- A place where no expression was put; it has no value. -/
  | hole

namespace Expr

/-- Two operands with an infix operator between them. Models `build_infix`. -/
def infixed (lhs : Expr) : Infix → Expr → Expr
  | .binary op, rhs => binary op lhs rhs
  | .access, rhs => access lhs rhs
  | .assign, rhs => assign lhs rhs

end Expr

/-- Statements. Models `Stmt` and its classes, with `Decl` and `Block`. -/
inductive Stmt where
  | expr (e : Expr)
  | print (e : Expr)
  | block (body : List Stmt)
  | var (name : String) (init : Option Expr)
  | branch (cond : Expr) (yes no : List Stmt)
  | loop (cond : Expr) (body : List Stmt)
  | func (name : String) (params : List String) (body : List Stmt)
  /-- Gives a built-in function a name. -/
  | builtin (name : String) (fn : Builtin)
  | ret (value : Option Expr)

/-- A block, or the top level of a program. -/
abbrev Block := List Stmt

/-- A program. -/
abbrev Program := Block

end Lox
