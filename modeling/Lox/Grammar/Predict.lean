import Lox.Grammar

/-!
# Prediction

Which tokens an instance of a form can begin with. One token decides between the branches of every
rule, except that a call and a value can both begin with a name; there the token after it decides,
since only a call goes on with an opening parenthesis.
-/

namespace Lox

namespace Kind

/-- Whether a value can begin with a token of this kind. -/
def startsValue : Kind → Bool
  | float | int | string | yes | no | nil | ident | leftParen => true
  | _ => false

/-- Whether an operand, and so an expression, can begin with a token of this kind. -/
def startsTerm : Kind → Bool
  | bang | tilde | minus => true
  | k => k.startsValue

/-- Whether a statement can begin with a token of this kind. -/
def startsStatement : Kind → Bool
  | printWord | varWord | forWord | ifWord | returnWord | whileWord | leftBrace => true
  | k => k.startsTerm

end Kind

namespace Rule

/-- Whether an instance of the rule can begin with a token of the kind `k` before one of the kind
`next`. -/
def opens (r : Rule) (k : Kind) (next : Option Kind) : Bool :=
  match r with
  | program | declaration => k = .funWord || k.startsStatement
  | funDecl => k = .funWord
  | parameters => k = .ident
  | statement => k.startsStatement
  | exprStmt | forCond | forStep | expr | term => k.startsTerm
  | printStmt => k = .printWord
  | varDecl => k = .varWord
  | forStmt => k = .forWord
  | forInit => k = .varWord || k = .semicolon || k.startsTerm
  | ifStmt => k = .ifWord
  | whileStmt => k = .whileWord
  | returnStmt => k = .returnWord
  | block => k = .leftBrace
  | call => k = .ident && next = some .leftParen
  | value => k.startsValue
  | foreign name => k = .foreign name

/-- Whether the rule has an instance without tokens. -/
def nullable : Rule → Bool
  | program | forCond | forStep => true
  | _ => false

end Rule

namespace Form

/-- Whether the form has an instance without tokens. -/
def nullable : Form → Bool
  | token _ | mark _ => false
  | rule r => r.nullable
  | empty | opt _ | many _ => true
  | seq a b => a.nullable && b.nullable
  | alt a b => a.nullable || b.nullable

/-- Whether an instance of the form can begin with a token of the kind `k` before one of the kind
`next`. -/
def opens (k : Kind) (next : Option Kind) : Form → Bool
  | token j | mark j => k = j
  | rule r => r.opens k next
  | empty => false
  | seq a b => a.opens k next || (a.nullable && b.opens k next)
  | alt a b => a.opens k next || b.opens k next
  | opt a | many a => a.opens k next

/-- Whether an instance of the form can begin with the first of the tokens `ts`. -/
def opensOn (a : Form) : List Token → Bool
  | [] => false
  | [t] => a.opens t.kind none
  | t :: u :: _ => a.opens t.kind (some u.kind)

end Form

end Lox
