import Lox.Decimal.Layout
import Lox.Decimal.Whole
import Lox.Defect
import Lox.Precedence
import Lox.Syntax
import Lox.Tree

/-!
# Syntax of a parse tree

Turns a parse tree into a program. Flat operand sequences are grouped by precedence, prefix
operators apply from right to left, and a `for` loop becomes a block that holds its initialiser and
a loop whose body ends in its step. The trees of the grammar meet one obstacle only, an integer
literal that is too long; any other tree may be refused for its shape.
-/

namespace Lox

namespace Infix

/-- The tiers of infix operators, the loosest first; all of them group to the left. Models
`CLIMBER`. -/
def tiers : Tiers Kind :=
  [[(.assign, .left)],
   [(.or, .left)],
   [(.and, .left)],
   [(.equal, .left), (.notEqual, .left)],
   [(.greater, .left), (.greaterEqual, .left), (.lower, .left), (.lowerEqual, .left)],
   [(.plus, .left), (.minus, .left)],
   [(.times, .left), (.divide, .left)],
   [(.dot, .left)]]

end Infix

namespace Tree

/-- The children that are nodes. Models `_trees`. -/
def nodes (cs : List Tree) : List Tree := cs.filter isNode

/-- The texts of the children that are leaves of a kind. Models `_tokens`. -/
def texts (kind : Kind) (cs : List Tree) : List String :=
  cs.filterMap fun
    | leaf k text => if k = kind then some text else none
    | node _ _ => none

/-- The first name among the children. -/
def firstName (cs : List Tree) : Except Defect String :=
  match texts .ident cs with
  | [] => .error .missing
  | x :: _ => .ok x

/-- The parameters among the children of a function declaration; the last list of them counts. Part
of `build_fun_decl`. -/
def params : List Tree → List String
  | [] => []
  | node .parameters cs :: rest =>
    if rest.any (fun | node .parameters _ => true | _ => false) then params rest
    else texts .ident cs
  | _ :: rest => params rest

/-- The expression of a single token. Models `build_object`. -/
def atom (kind : Kind) (text : String) : Except Defect Expr :=
  match kind with
  | .int =>
    match Decimal.readWhole text.toList with
    | .ok n => .ok (.literal (.int n))
    | .error (.tooLong digits) => .error (.longInteger digits)
    | .error .noNumber => .error .misshapen
  | .float =>
    match Decimal.double? text with
    | some x => .ok (.literal (.float x))
    | none => .error .misshapen
  | .string => .ok (.literal (.str (String.ofList (text.toList.drop 1).dropLast)))
  | .yes => .ok (.literal (.bool true))
  | .no => .ok (.literal (.bool false))
  | .nil => .ok (.literal .unit)
  | .ident => .ok (.name text)
  | k => .error (.unexpected k.name)

/-- Applies the prefix operators of the leaves, the last one first. Part of `build_term`. -/
def applyPrefixes (operand : Expr) : List Tree → Except Defect Expr
  | [] => .ok operand
  | leaf kind _ :: rest =>
    match applyPrefixes operand rest with
    | .error d => .error d
    | .ok e =>
      match UnaryOp.read kind with
      | .ok op => .ok (.unary op e)
      | .error d => .error d
  | node _ _ :: rest =>
    match applyPrefixes operand rest with
    | .error d => .error d
    | .ok _ => .error .misshapen

mutual

/-- The expression of an `expr` node. Models `build_expr`. -/
def expr : Tree → Except Defect Expr
  | node .expr cs => do
    let (first, steps) ← operands cs
    return Precedence.group Expr.infixed first steps
  | t => .error (.unexpected t.label)
termination_by structural t => t

/-- The operands of a sequence that begins with one, and the operators between them. What
`build_expr` hands to `PrecClimber.climb`. -/
def operands : List Tree → Except Defect (Expr × List (Step Expr Infix))
  | [] => .error .missing
  | [t] => do
    let e ← term t
    return (e, [])
  | t :: leaf kind _ :: rest => do
    let e ← term t
    match Infix.tiers.rank? kind, Infix.ofKind? kind with
    | some rank, some op => do
      let (next, steps) ← operands rest
      return (e, ⟨rank, op, next⟩ :: steps)
    | _, _ => .error (.noInfix kind.name)
  | t :: node _ _ :: _ => do
    let _ ← term t
    .error .misshapen
termination_by structural cs => cs

/-- The expression of a `term` node. Models `build_term`. -/
def term : Tree → Except Defect Expr
  | node .term cs => do
    let e ← lastOperand cs
    applyPrefixes e cs.dropLast
  | t => .error (.unexpected t.label)
termination_by structural t => t

/-- The expression of the last of the children. Part of `build_term`, with `build_call`. -/
def lastOperand : List Tree → Except Defect Expr
  | [] => .error .misshapen
  | [node .call cs] => do
    let callee ← firstName cs
    let args ← exprs cs
    return .call callee args
  | [node .value cs] => value cs
  | [node rule _] => .error (.unexpected rule.name)
  | [leaf _ _] => .error .misshapen
  | _ :: t :: ts => lastOperand (t :: ts)
termination_by structural cs => cs

/-- The expression of the only child of a `value` node. Models `build_value`. -/
def value : List Tree → Except Defect Expr
  | [leaf kind text] => atom kind text
  | [t] => expr t
  | _ => .error .misshapen
termination_by structural cs => cs

/-- The expressions of all children that are nodes. -/
def exprs : List Tree → Except Defect (List Expr)
  | [] => .ok []
  | leaf _ _ :: rest => exprs rest
  | t :: rest => do
    let e ← expr t
    let es ← exprs rest
    return e :: es
termination_by structural cs => cs

end

/-- The expression of the first of the nodes. -/
def firstExpr : List Tree → Except Defect Expr
  | [] => .error .missing
  | t :: _ => expr t

/-- The expression of the first of the nodes, if there is one. -/
def firstExpr? : List Tree → Except Defect (Option Expr)
  | [] => .ok none
  | t :: _ => some <$> expr t

/-- The nodes under the node that has `count` nodes before it. -/
def nodesUnder (count : Nat) (cs : List Tree) : List Tree :=
  match (nodes cs)[count]? with
  | some (node _ ds) => nodes ds
  | _ => []

/-- Whether the tree is what stands under a `statement` node. The keys of `STATEMENTS`. -/
def isStatement : Tree → Bool
  | node .exprStmt _ | node .printStmt _ | node .varDecl _ | node .forStmt _ | node .ifStmt _
  | node .whileStmt _ | node .returnStmt _ | node .block _ => true
  | node _ _ | leaf _ _ => false

mutual

/-- The statements of all children that are nodes. Part of `build_program` and `build_block`. -/
def stmts : List Tree → Except Defect (List Stmt)
  | [] => .ok []
  | leaf _ _ :: rest => stmts rest
  | t :: rest => do
    let s ← decl t
    let ss ← stmts rest
    return s :: ss
termination_by structural cs => cs

/-- The statement of a `declaration` node. Models `build_decl`, with `build_fun_decl` and
`build_stmt`. -/
def decl : Tree → Except Defect Stmt
  | node .declaration [node .funDecl cs] => do
    let name ← firstName cs
    let body ← lastBlock cs
    return .func name (params cs) body
  | node .declaration [node .statement [t]] => stmt t
  | node .declaration [node .statement _] => .error .misshapen
  | node .declaration [node rule _] => .error (.unexpected rule.name)
  | node .declaration _ => .error .misshapen
  | t => .error (.unexpected t.label)
termination_by structural t => t

/-- The statements of a `block` node. Models `build_block`. -/
def block : Tree → Except Defect Block
  | node .block cs => stmts cs
  | t => .error (.unexpected t.label)
termination_by structural t => t

/-- The block of the last child that is a node. Part of `build_fun_decl`. -/
def lastBlock : List Tree → Except Defect Block
  | [] => .error .missing
  | t :: rest => if t.isNode && (nodes rest).isEmpty then block t else lastBlock rest
termination_by structural cs => cs

/-- The block of the child that has `count` nodes before it. -/
def blockAt (count : Nat) : List Tree → Except Defect Block
  | [] => .error .misshapen
  | leaf _ _ :: rest => blockAt count rest
  | t :: rest =>
    match count with
    | 0 => block t
    | before + 1 => blockAt before rest
termination_by structural cs => cs

/-- The statements of all children that are nodes, which stand without `statement` nodes. Any other
node among them is not reported by its name. Part of `build_for`. -/
def bareStmts : List Tree → Except Defect (List Stmt)
  | [] => .ok []
  | leaf _ _ :: rest => bareStmts rest
  | t :: rest =>
    if t.isStatement then do
      let s ← stmt t
      let ss ← bareStmts rest
      return s :: ss
    else .error .misshapen
termination_by structural cs => cs

/-- The statements under the first node. -/
def firstBareStmts : List Tree → Except Defect (List Stmt)
  | [] => .error .misshapen
  | leaf _ _ :: rest => firstBareStmts rest
  | node _ cs :: _ => bareStmts cs
termination_by structural cs => cs

/-- The statement of the node under a `statement` node. In a `for` statement the initialiser comes
first, a condition that is left out is true, and the step is the last statement of the body. In an
`if` statement the `else` block is turned first. Models `STATEMENTS`, with `build_var_decl`,
`build_for`, `build_if`, `build_while` and `build_return`. -/
def stmt : Tree → Except Defect Stmt
  | node .exprStmt cs => .expr <$> firstExpr (nodes cs)
  | node .printStmt cs => .print <$> firstExpr (nodes cs)
  | node .varDecl cs => do
    let name ← firstName cs
    let init ← firstExpr? (nodes cs)
    return .var name init
  | node .forStmt cs =>
    if (nodes cs).length ≠ 4 then .error .misshapen
    else do
      let inits ← firstBareStmts cs
      let cond ← firstExpr? (nodesUnder 1 cs)
      let body ← blockAt 3 cs
      let steps ← exprs (nodesUnder 2 cs)
      let loop := Stmt.loop (cond.getD (.literal (.bool true))) (body ++ steps.map .expr)
      return .block (inits ++ [loop])
  | node .ifStmt cs =>
    if (nodes cs).length < 2 then .error .misshapen
    else do
      let no ← if (nodes cs).length = 2 then .ok [] else blockAt 2 cs
      let cond ← firstExpr (nodes cs)
      let yes ← blockAt 1 cs
      return .branch cond yes no
  | node .whileStmt cs =>
    if (nodes cs).length ≠ 2 then .error .misshapen
    else do
      let cond ← firstExpr (nodes cs)
      let body ← blockAt 1 cs
      return .loop cond body
  | node .returnStmt cs => .ret <$> firstExpr? (nodes cs)
  | node .block cs => .block <$> stmts cs
  | node rule _ => .error (.unexpected rule.name)
  | leaf _ _ => .error .misshapen
termination_by structural t => t

end

/-- The program of a `program` node. Models `build_program`. -/
def toProgram : Tree → Except Defect Program
  | node .program cs => stmts cs
  | t => .error (.unexpected t.label)

end Tree

end Lox
