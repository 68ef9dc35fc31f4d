import Lox.Tree

/-!
# The grammar

The rules of the language as data. The right-hand side of a rule is a `Form`, built from tokens,
rules, sequences, alternatives, options and repetitions. Expressions are flat: operands with infix
operators between them, to be grouped by precedence later. `Derives` says which token sequences a
form stands for, and with which trees.
-/

namespace Lox

/-- A right-hand side: what a rule stands for. -/
inductive Form where
  /-- A token that becomes a leaf. -/
  | token (kind : Kind)
  /-- A token without a leaf. -/
  | mark (kind : Kind)
  | rule (r : Rule)
  | empty
  | seq (a b : Form)
  | alt (a b : Form)
  | opt (a : Form)
  | many (a : Form)
  deriving DecidableEq, Repr

namespace Form

/-- The forms of a list, one after the other. -/
def inOrder : List Form → Form
  | [] => empty
  | [a] => a
  | a :: b :: rest => seq a (inOrder (b :: rest))

/-- One of `first` and the forms of a list. -/
def oneOf (first : Form) : List Form → Form
  | [] => first
  | second :: rest => alt first (oneOf second rest)

/-- The infix operators. -/
def infixOperator : Form :=
  oneOf (token .assign)
    [token .or, token .and, token .equal, token .notEqual, token .greater, token .greaterEqual,
     token .lower, token .lowerEqual, token .plus, token .minus, token .times, token .divide,
     token .dot]

/-- The prefix operators. -/
def prefixOperator : Form := oneOf (token .bang) [token .tilde, token .minus]

/-- One or more of `a`, with commas between them. -/
def commaSeparated (a : Form) : Form := seq a (many (seq (mark .comma) a))

end Form

open Form in
/-- The right-hand side of each rule. -/
def Rule.form : Rule → Form
  | .program => many (rule .declaration)
  | .declaration => oneOf (rule .funDecl) [rule .statement]
  | .funDecl =>
    inOrder [mark .funWord, token .ident, mark .leftParen, opt (rule .parameters),
      mark .rightParen, rule .block]
  | .parameters => commaSeparated (token .ident)
  | .statement =>
    oneOf (rule .exprStmt)
      [rule .printStmt, rule .varDecl, rule .forStmt, rule .ifStmt, rule .returnStmt,
       rule .whileStmt, rule .block]
  | .exprStmt => inOrder [rule .expr, mark .semicolon]
  | .printStmt => inOrder [mark .printWord, rule .expr, mark .semicolon]
  | .varDecl =>
    inOrder [mark .varWord, token .ident, opt (inOrder [mark .assign, rule .expr]),
      mark .semicolon]
  | .forStmt =>
    inOrder [mark .forWord, mark .leftParen, rule .forInit, rule .forCond, mark .semicolon,
      rule .forStep, mark .rightParen, rule .block]
  | .forInit => oneOf (rule .varDecl) [rule .exprStmt, mark .semicolon]
  | .forCond => opt (rule .expr)
  | .forStep => opt (rule .expr)
  | .ifStmt =>
    inOrder [mark .ifWord, mark .leftParen, rule .expr, mark .rightParen, rule .block,
      opt (inOrder [mark .elseWord, rule .block])]
  | .whileStmt =>
    inOrder [mark .whileWord, mark .leftParen, rule .expr, mark .rightParen, rule .block]
  | .returnStmt => inOrder [mark .returnWord, opt (rule .expr), mark .semicolon]
  | .block => inOrder [mark .leftBrace, many (rule .declaration), mark .rightBrace]
  | .expr => seq (rule .term) (many (seq infixOperator (rule .term)))
  | .term => seq (many prefixOperator) (oneOf (rule .call) [rule .value])
  | .call =>
    inOrder [token .ident, mark .leftParen, opt (commaSeparated (rule .expr)), mark .rightParen]
  | .value =>
    oneOf (token .float)
      [token .int, token .string, token .yes, token .no, token .nil, token .ident,
       inOrder [mark .leftParen, rule .expr, mark .rightParen]]
  | .foreign name => token (.foreign name)

/-- `Derives a ts cs`: the tokens `ts` are an instance of the form `a`, and `cs` are its trees. -/
inductive Derives : Form → List Token → List Tree → Prop where
  | token {t : Token} {kind : Kind} (h : t.kind = kind) :
      Derives (.token kind) [t] [Tree.ofToken t]
  | mark {t : Token} {kind : Kind} (h : t.kind = kind) : Derives (.mark kind) [t] []
  | rule {r : Rule} {ts : List Token} {cs : List Tree} (h : Derives r.form ts cs) :
      Derives (.rule r) ts [.node r cs]
  | empty : Derives .empty [] []
  | seq {a b : Form} {ts us : List Token} {cs ds : List Tree} (ha : Derives a ts cs)
      (hb : Derives b us ds) : Derives (.seq a b) (ts ++ us) (cs ++ ds)
  | altLeft {a b : Form} {ts : List Token} {cs : List Tree} (h : Derives a ts cs) :
      Derives (.alt a b) ts cs
  | altRight {a b : Form} {ts : List Token} {cs : List Tree} (h : Derives b ts cs) :
      Derives (.alt a b) ts cs
  | optNone {a : Form} : Derives (.opt a) [] []
  | optSome {a : Form} {ts : List Token} {cs : List Tree} (h : Derives a ts cs) :
      Derives (.opt a) ts cs
  | manyNil {a : Form} : Derives (.many a) [] []
  | manyCons {a : Form} {ts us : List Token} {cs ds : List Tree} (ha : Derives a ts cs)
      (hm : Derives (.many a) us ds) : Derives (.many a) (ts ++ us) (cs ++ ds)

end Lox
