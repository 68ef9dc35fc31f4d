import Lox.Decimal.Layout
import Lox.Syntax

/-!
# Dump of a program

A program as indented lines, two spaces for each level. Everything of the program is in its dump
except for the names of parameters, which are only counted.
-/

namespace Lox

namespace Literal

/-- The text of a literal; a string stands without its quotes. Models `__str__` of each `Object`. -/
def text : Literal → String
  | int n => toString n
  | float x => Decimal.doubleText x
  | str s => s
  | bool true => "true"
  | bool false => "false"
  | unit => "()"

/-- The literal as it is dumped: a string stands in quotes. Models `Object.debug`. -/
def shown : Literal → String
  | str s => "\"" ++ s ++ "\""
  | l => l.text

end Literal

namespace Dump

/-- One line of a dump. Models `Printer._line`. -/
def line (level : Nat) (text : String) : String :=
  String.ofList (List.replicate (2 * level) ' ') ++ text ++ "\n"

mutual

/-- The lines of an expression. Models `Printer.visit_expr` and `Printer.visit_obj`. -/
def expr (level : Nat) : Expr → String
  | .literal l => line level ("[objt]: " ++ l.shown)
  | .name x => line level ("[objt]: " ++ x)
  | .unary op e => line level ("[unop] " ++ op.sign) ++ expr (level + 1) e
  | .binary op a b =>
    line level ("[bnop] " ++ op.sign) ++ expr (level + 1) a ++ expr (level + 1) b
  | .access a b => line level "[accs]" ++ expr (level + 1) a ++ expr (level + 1) b
  | .assign a b => line level "[asgn]" ++ expr (level + 1) a ++ expr (level + 1) b
  | .call callee [] => line level ("[call] " ++ callee ++ " ()")
  | .call callee args => line level ("[call] " ++ callee ++ " (") ++ exprs (level + 1) args
  | .hole => ""
termination_by structural e => e

/-- The lines of the expressions of a list. -/
def exprs (level : Nat) : List Expr → String
  | [] => ""
  | e :: es => expr level e ++ exprs level es
termination_by structural es => es

end

/-- The lines of an expression that may be left out. -/
def expr? (level : Nat) : Option Expr → String
  | none => ""
  | some e => expr level e

mutual

/-- The lines of a statement and of what it holds. Models `Printer.visit_stmt`,
`Printer.visit_var_decl`, `Printer.visit_func` and `Printer.visit_block`. -/
def stmt (level : Nat) : Stmt → String
  | .expr e => line level "[stmt]: expr" ++ expr (level + 1) e
  | .print e => line level "[stmt]: print" ++ expr (level + 1) e
  | .block body =>
    line level "[stmt]: block" ++ line (level + 1) "[blck]" ++ stmts (level + 2) body
  | .var name init =>
    line level "[stmt]: var" ++ line (level + 1) ("[idnt]: " ++ name) ++ expr? (level + 1) init
  | .branch cond yes no =>
    line level "[stmt]: if" ++ expr (level + 1) cond
      ++ line (level + 1) "[blck]" ++ stmts (level + 2) yes
      ++ line (level + 1) "[blck]" ++ stmts (level + 2) no
  | .loop cond body =>
    line level "[stmt]: while" ++ expr (level + 1) cond
      ++ line (level + 1) "[blck]" ++ stmts (level + 2) body
  | .func name params body =>
    line level "[stmt]: func"
      ++ line (level + 1) ("<fn " ++ name ++ " (" ++ toString params.length ++ ")>")
      ++ line (level + 1) "[blck]" ++ stmts (level + 2) body
  | .builtin _ fn =>
    line level "[stmt]: func"
      ++ line (level + 1)
        ("<fn builtin " ++ fn.name ++ " (" ++ toString fn.params.length ++ ")>")
  | .ret value => line level "[stmt]: return" ++ expr? (level + 1) value
termination_by structural s => s

/-- The lines of the statements of a list, each one a declaration. Models `Printer.visit_decl`. -/
def stmts (level : Nat) : List Stmt → String
  | [] => ""
  | s :: ss => line level "[decl]: stmt" ++ stmt (level + 1) s ++ stmts level ss
termination_by structural ss => ss

end

end Dump

/-- The dump of a program. Models `Printer.visit_program`. -/
def Program.dump (p : Program) : String := Dump.line 0 "[prgm]" ++ Dump.stmts 1 p

end Lox
