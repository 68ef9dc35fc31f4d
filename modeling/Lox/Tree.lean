import Lox.Token

/-!
# Parse trees

A parse tree has a node for every use of a grammar rule and a leaf for every token that carries
meaning. Keywords and punctuation have no leaves.
-/

namespace Lox

/-- The rules of the grammar. A rule outside the grammar is `foreign`; no source text gives a node
of it. -/
inductive Rule where
  | program | declaration | funDecl | parameters | statement
  | exprStmt | printStmt | varDecl | forStmt | forInit | forCond | forStep
  | ifStmt | whileStmt | returnStmt | block
  | expr | term | call | value
  | foreign (name : String)
  deriving DecidableEq, Repr

namespace Rule

/-- The rules of the grammar. -/
def all : List Rule :=
  [.program, .declaration, .funDecl, .parameters, .statement, .exprStmt, .printStmt, .varDecl,
   .forStmt, .forInit, .forCond, .forStep, .ifStmt, .whileStmt, .returnStmt, .block,
   .expr, .term, .call, .value]

/-- The name by which messages and trees refer to a rule. -/
def name : Rule → String
  | program => "program" | declaration => "declaration" | funDecl => "fun_decl"
  | parameters => "parameters" | statement => "statement" | exprStmt => "expr_stmt"
  | printStmt => "print_stmt" | varDecl => "var_decl" | forStmt => "for_stmt"
  | forInit => "for_init" | forCond => "for_cond" | forStep => "for_step" | ifStmt => "if_stmt"
  | whileStmt => "while_stmt" | returnStmt => "return_stmt" | block => "block" | expr => "expr"
  | term => "term" | call => "call" | value => "value"
  | foreign name => name

/-- The rule of that name. -/
def ofName (name : String) : Rule := (all.find? (·.name == name)).getD (.foreign name)

/-- The rules of the grammar have names of their own. -/
theorem ofName_name {r : Rule} (h : r ∈ all) : ofName r.name = r := by
  simp only [all, List.mem_cons, List.not_mem_nil, or_false] at h
  rcases h with rfl | rfl | rfl | rfl | rfl | rfl | rfl | rfl | rfl | rfl | rfl | rfl | rfl | rfl |
    rfl | rfl | rfl | rfl | rfl | rfl <;> rfl

end Rule

/-- A parse tree. -/
inductive Tree where
  | node (rule : Rule) (children : List Tree)
  | leaf (kind : Kind) (text : String)
  deriving Repr

/-- Some tree. -/
instance : Inhabited Tree := ⟨.leaf .nil ""⟩

namespace Tree

/-- The name of the rule or the kind at the root. -/
def label : Tree → String
  | node rule _ => rule.name
  | leaf kind _ => kind.name

/-- The leaf of a token. -/
def ofToken (t : Token) : Tree := leaf t.kind t.text

/-- Whether the root is a rule. -/
def isNode : Tree → Bool
  | node _ _ => true
  | leaf _ _ => false

end Tree

end Lox
