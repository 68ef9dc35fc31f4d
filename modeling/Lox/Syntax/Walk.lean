import Lox.Syntax

/-!
# Walks over a program

The nodes of a program in the order of the source text: an operand before the one to its right, a
condition before its blocks, arguments from left to right, and every node before what it holds.
-/

namespace Lox

/-- What stands in an operand place: a literal or a name. -/
inductive Atom where
  | literal (l : Literal)
  | name (x : String)

/-- A node that a walk comes by. -/
inductive Visit where
  | program
  | decl
  | stmt (s : Stmt)
  | block
  | varDecl
  | branch
  | loop
  | func
  | expr (e : Expr)
  | atom (a : Atom)

namespace Walk

mutual

/-- The walk over an expression. Models `walk_expr`. -/
def expr : Expr → List Visit
  | .literal l => [.expr (.literal l), .atom (.literal l)]
  | .name x => [.expr (.name x), .atom (.name x)]
  | .unary op e => .expr (.unary op e) :: expr e
  | .binary op a b => .expr (.binary op a b) :: (expr a ++ expr b)
  | .access a b => .expr (.access a b) :: (expr a ++ expr b)
  | .assign a b => .expr (.assign a b) :: (expr a ++ expr b)
  | .call callee args => .expr (.call callee args) :: exprs args
  | .hole => [.expr .hole]
termination_by structural e => e

/-- The walk over the expressions of a list. -/
def exprs : List Expr → List Visit
  | [] => []
  | e :: es => expr e ++ exprs es
termination_by structural es => es

end

/-- The walk over an expression that may be left out. -/
def expr? : Option Expr → List Visit
  | none => []
  | some e => expr e

mutual

/-- The walk over a statement. Models `walk_stmt`, with `walk_var_decl`, `walk_if`, `walk_while` and
`walk_func`. -/
def stmt (s : Stmt) : List Visit :=
  .stmt s ::
    match s with
    | .expr e | .print e => expr e
    | .block body => .block :: stmts body
    | .var _ init => .varDecl :: expr? init
    | .branch cond yes no => .branch :: (expr cond ++ .block :: stmts yes ++ .block :: stmts no)
    | .loop cond body => .loop :: (expr cond ++ .block :: stmts body)
    | .func _ _ body => .func :: .block :: stmts body
    | .builtin _ _ => [.func]
    | .ret value => expr? value
termination_by structural s

/-- The walk over the statements of a list. Models `walk_block` and `walk_decl`. -/
def stmts : List Stmt → List Visit
  | [] => []
  | s :: ss => .decl :: (stmt s ++ stmts ss)
termination_by structural ss => ss

end

end Walk

/-- The walk over a whole program. Models `walk_program`. -/
def Program.walk (p : Program) : List Visit := .program :: Walk.stmts p

/-- The literals and names of a walk, in its order. -/
def Visit.atoms (vs : List Visit) : List Atom :=
  vs.filterMap fun
    | .atom a => some a
    | _ => none

end Lox
