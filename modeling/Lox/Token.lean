/-!
# Tokens

The kinds of tokens and the tokens themselves. A token carries its text and the place where it
starts.
-/

namespace Lox

/-- The kinds of tokens: literals and names, operators, keywords and punctuation. A kind outside
the language is `foreign`; no source text has a token of it. -/
inductive Kind where
  | float | int | string | yes | no | nil | ident
  | assign | or | and | equal | notEqual | greater | greaterEqual | lower | lowerEqual
  | plus | minus | times | divide | dot | bang | tilde
  | funWord | printWord | varWord | forWord | ifWord | elseWord | returnWord | whileWord
  | leftParen | rightParen | leftBrace | rightBrace | comma | semicolon
  | foreign (name : String)
  deriving DecidableEq, Repr

namespace Kind

/-- The kinds of the language. -/
def all : List Kind :=
  [.float, .int, .string, .yes, .no, .nil, .ident,
   .assign, .or, .and, .equal, .notEqual, .greater, .greaterEqual, .lower, .lowerEqual,
   .plus, .minus, .times, .divide, .dot, .bang, .tilde,
   .funWord, .printWord, .varWord, .forWord, .ifWord, .elseWord, .returnWord, .whileWord,
   .leftParen, .rightParen, .leftBrace, .rightBrace, .comma, .semicolon]

/-- The name by which messages and trees refer to a kind. -/
def name : Kind → String
  | float => "FLOAT" | int => "INT" | string => "STRING" | yes => "TRUE" | no => "FALSE"
  | nil => "NIL" | ident => "IDENT"
  | assign => "OP_ASSIGN" | or => "OP_OR" | and => "OP_AND" | equal => "OP_EQUAL"
  | notEqual => "OP_NOT_EQUAL" | greater => "OP_GREATER" | greaterEqual => "OP_GREATER_EQUAL"
  | lower => "OP_LOWER" | lowerEqual => "OP_LOWER_EQUAL" | plus => "OP_PLUS"
  | minus => "OP_MINUS" | times => "OP_TIMES" | divide => "OP_DIVIDE" | dot => "OP_DOT"
  | bang => "OP_BANG" | tilde => "OP_TILDE"
  | funWord => "FUN" | printWord => "PRINT" | varWord => "VAR" | forWord => "FOR" | ifWord => "IF"
  | elseWord => "ELSE" | returnWord => "RETURN" | whileWord => "WHILE"
  | leftParen => "LPAR" | rightParen => "RPAR" | leftBrace => "LBRACE" | rightBrace => "RBRACE"
  | comma => "COMMA" | semicolon => "SEMICOLON"
  | foreign name => name

/-- The kind of that name. -/
def ofName (name : String) : Kind := (all.find? (·.name == name)).getD (.foreign name)

/-- The kinds of the language have names of their own. -/
theorem ofName_name {k : Kind} (h : k ∈ all) : ofName k.name = k := by
  simp only [all, List.mem_cons, List.not_mem_nil, or_false] at h
  rcases h with rfl | rfl | rfl | rfl | rfl | rfl | rfl | rfl | rfl | rfl | rfl | rfl | rfl | rfl |
    rfl | rfl | rfl | rfl | rfl | rfl | rfl | rfl | rfl | rfl | rfl | rfl | rfl | rfl | rfl | rfl |
    rfl | rfl | rfl | rfl | rfl | rfl | rfl <;> rfl

end Kind

/-- A place in a text: line and column count from one, lines end at line feeds, and columns count
characters. -/
structure Place where
  line : Nat
  column : Nat
  deriving DecidableEq, Repr

namespace Place

/-- Where a text starts. -/
def start : Place := ⟨1, 1⟩

/-- The place after the character `c`. -/
def after (p : Place) (c : Char) : Place :=
  if c = '\n' then ⟨p.line + 1, 1⟩ else ⟨p.line, p.column + 1⟩

/-- The place after the characters `cs`. -/
def advance (p : Place) (cs : List Char) : Place := cs.foldl after p

end Place

/-- A token: its kind, its text and where it starts. -/
structure Token where
  kind : Kind
  text : String
  place : Place
  deriving DecidableEq, Repr

end Lox
