import Lox.Proofs.Numerals
import Lox.Proofs.OperatorTree
import Lox.Proofs.Spelling
import Lox.Syntax.OfTree

/-!
# Unparsing

Writes programs as source text. A subexpression has parentheses only where the ranks of the infix
operators ask for them. How a float is written is a parameter, since many texts are read as the same
float. `Writable` says which programs can be written: their names are names, their integers and
strings have a literal, and every expression has its parts.
-/

namespace Lox

/-! ### Operators -/

/-- The kind of token that writes a prefix operator. -/
def UnaryOp.kind : UnaryOp → Kind
  | not => .bang
  | minus => .minus

/-- What writes a prefix operator is read as that operator. -/
theorem UnaryOp.ofKind?_kind (op : UnaryOp) : ofKind? op.kind = some op := by
  cases op <;> rfl

/-- The kind of token that writes an infix operator that computes a value. -/
def BinaryOp.kind : BinaryOp → Kind
  | plus => .plus | minus => .minus | times => .times | divide => .divide
  | gt => .greater | ge => .greaterEqual | lt => .lower | le => .lowerEqual
  | eq => .equal | ne => .notEqual | and => .and | or => .or

namespace Infix

/-- The kind of token that writes an infix operator. -/
def kind : Infix → Kind
  | binary op => op.kind
  | access => .dot
  | assign => .assign

/-- How tight an infix operator binds, and to which side it groups. -/
def rank (op : Infix) : Rank := (tiers.rank? op.kind).getD ⟨0, .left⟩

/-- Every infix operator stands in a tier. -/
theorem rank?_kind (op : Infix) : tiers.rank? op.kind = some op.rank := by
  cases op with
  | binary op => cases op <;> rfl
  | access => rfl
  | assign => rfl

/-- What writes an infix operator is read as that operator. -/
theorem ofKind?_kind (op : Infix) : ofKind? op.kind = some op := by
  cases op with
  | binary op => cases op <;> rfl
  | access => rfl
  | assign => rfl

end Infix

/-! ### Words of a program -/

/-- A text of words in parentheses. -/
def Word.parens (ws : List Word) : List Word :=
  .ofKind .leftParen :: ws ++ [.ofKind .rightParen]

/-- The word of a literal. -/
def Literal.word (spell : Float → String) : Literal → Word
  | int n => ⟨.int, toString n.toNat⟩
  | float x => ⟨.float, spell x⟩
  | str s => ⟨.string, String.ofList ('"' :: (s.toList ++ ['"']))⟩
  | bool b => .ofKind (if b then .yes else .no)
  | unit => .ofKind .nil

namespace Expr

/-- The infix operator at the root. -/
def infix? : Expr → Option Infix
  | binary op _ _ => some (.binary op)
  | access _ _ => some .access
  | assign _ _ => some .assign
  | literal _ | name _ | unary _ _ | call _ _ | hole => none

/-- Whether an expression can stand without parentheses where the rank of an infix operator has to
be as `fits` says. -/
def isBare (fits : Rank → Bool) (e : Expr) : Bool := (e.infix?.map Infix.rank).all fits

/-- The words `ws` of an expression, in parentheses unless it can stand without. -/
def enclose (fits : Rank → Bool) (e : Expr) (ws : List Word) : List Word :=
  if e.isBare fits then ws else Word.parens ws

/-- The words of an operator and its operands, which have the words `ws` and `vs`. -/
def infixWords (op : Infix) (a : Expr) (ws : List Word) (b : Expr) (vs : List Word) :
    List Word :=
  a.enclose (fun q => op.rank.FitsLeft q) ws ++
    .ofKind op.kind :: b.enclose (fun q => op.rank.FitsRight q) vs

variable (spell : Float → String)

mutual

/-- The words of an expression. -/
def words : Expr → List Word
  | literal l => [l.word spell]
  | name x => [⟨.ident, x⟩]
  | unary op e => .ofKind op.kind :: e.enclose (fun _ => false) e.words
  | binary op a b => infixWords (.binary op) a a.words b b.words
  | access a b => infixWords .access a a.words b b.words
  | assign a b => infixWords .assign a a.words b b.words
  | call f args => ⟨.ident, f⟩ :: Word.parens (listWords args)
  | hole => []
termination_by structural e => e

/-- The words of expressions with commas between them. -/
def listWords : List Expr → List Word
  | [] => []
  | e :: es => e.words ++ moreWords es
termination_by structural es => es

/-- The words of expressions with a comma before each. -/
def moreWords : List Expr → List Word
  | [] => []
  | e :: es => .ofKind .comma :: (e.words ++ moreWords es)
termination_by structural es => es

end

end Expr

namespace Stmt

/-- The words of names with commas between them. -/
def nameWords : List String → List Word
  | [] => []
  | x :: xs => ⟨.ident, x⟩ :: xs.flatMap fun y => [.ofKind .comma, ⟨.ident, y⟩]

/-- The words of a block. -/
def braces (ws : List Word) : List Word := .ofKind .leftBrace :: ws ++ [.ofKind .rightBrace]

variable (spell : Float → String)

mutual

/-- The words of a statement. An `else` block without statements is left out. -/
def words : Stmt → List Word
  | expr e => e.words spell ++ [.ofKind .semicolon]
  | print e => .ofKind .printWord :: e.words spell ++ [.ofKind .semicolon]
  | block body => braces (listWords body)
  | var x none => [.ofKind .varWord, ⟨.ident, x⟩, .ofKind .semicolon]
  | var x (some e) =>
    .ofKind .varWord :: ⟨.ident, x⟩ :: .ofKind .assign :: e.words spell ++ [.ofKind .semicolon]
  | branch cond yes no =>
    .ofKind .ifWord :: Word.parens (cond.words spell) ++ braces (listWords yes) ++
      if no.isEmpty then [] else .ofKind .elseWord :: braces (listWords no)
  | loop cond body =>
    .ofKind .whileWord :: Word.parens (cond.words spell) ++ braces (listWords body)
  | func name params body =>
    .ofKind .funWord :: ⟨.ident, name⟩ :: Word.parens (nameWords params) ++
      braces (listWords body)
  | builtin _ _ => []
  | ret none => [.ofKind .returnWord, .ofKind .semicolon]
  | ret (some e) => .ofKind .returnWord :: e.words spell ++ [.ofKind .semicolon]
termination_by structural s => s

/-- The words of statements one after the other. -/
def listWords : List Stmt → List Word
  | [] => []
  | s :: ss => s.words ++ listWords ss
termination_by structural ss => ss

end

end Stmt

/-- The source text of a program. -/
def Program.unparse (spell : Float → String) (p : Program) : String :=
  String.ofList (Word.spaced (Stmt.listWords spell p))

/-- Differences group to the left, so only one on the right has parentheses. -/
example :
    Program.unparse (fun _ => "")
      [.expr (.binary .minus (.binary .minus (.name "a") (.name "b"))
        (.binary .minus (.name "c") (.unary .minus (.name "d"))))] =
      "a - b - ( c - - d ) ; " := by
  rfl

/-! ### Writable programs -/

/-- Some number with a fraction is read as the float. -/
def Decimal.IsRead (x : Float) : Prop := ∃ s, Scan.IsFraction s ∧ double? s = some x

/-- Whether a literal can be written: an integer is not negative and not too long, a float is read
from some text, and a string has no quotation mark. -/
def Literal.Writable : Literal → Prop
  | int n => 0 ≤ n ∧ Decimal.isWritable n = true
  | float x => Decimal.IsRead x
  | str s => '"' ∉ s.toList
  | bool _ | unit => True

namespace Expr

mutual

/-- Whether an expression can be written. -/
def Writable : Expr → Prop
  | literal l => l.Writable
  | name x => Scan.isName x = true
  | unary _ e => e.Writable
  | binary _ a b | access a b | assign a b => a.Writable ∧ b.Writable
  | call f args => Scan.isName f = true ∧ AllWritable args
  | hole => False
termination_by structural e => e

/-- Whether expressions can be written. -/
def AllWritable : List Expr → Prop
  | [] => True
  | e :: es => e.Writable ∧ AllWritable es
termination_by structural es => es

end

end Expr

namespace Stmt

mutual

/-- Whether a statement can be written. -/
def Writable : Stmt → Prop
  | expr e | print e => e.Writable
  | block body => AllWritable body
  | var x none => Scan.isName x = true
  | var x (some e) => Scan.isName x = true ∧ e.Writable
  | branch cond yes no => cond.Writable ∧ AllWritable yes ∧ AllWritable no
  | loop cond body => cond.Writable ∧ AllWritable body
  | func name params body =>
    Scan.isName name = true ∧ (∀ x ∈ params, Scan.isName x = true) ∧ AllWritable body
  | builtin _ _ => False
  | ret none => True
  | ret (some e) => e.Writable
termination_by structural s => s

/-- Whether statements can be written. -/
def AllWritable : List Stmt → Prop
  | [] => True
  | s :: ss => s.Writable ∧ AllWritable ss
termination_by structural ss => ss

end

end Stmt

/-- Whether a program can be written. -/
def Program.Writable (p : Program) : Prop := Stmt.AllWritable p

/-! ### Every word is spelled -/

section Spelled

variable {spell : Float → String}

/-- A spelling of floats is one that is read back, for each float that can be read. -/
def Decimal.Spells (spell : Float → String) : Prop :=
  ∀ x, IsRead x → Scan.IsFraction (spell x) ∧ double? (spell x) = some x

open Classical in
/-- Some number with a fraction that is read as the float, if there is one. -/
noncomputable def Decimal.someText (x : Float) : String :=
  if h : IsRead x then Classical.choose h else ""

/-- Floats can be spelled. -/
theorem Decimal.spells_someText : Spells someText := by
  intro x hx
  rw [someText, dif_pos hx]
  exact Classical.choose_spec hx

/-- All words of a text are spelled. -/
def Word.AllSpelled (ws : List Word) : Prop := ∀ w ∈ ws, w.Spelled

namespace Word

@[simp] private theorem allSpelled_nil : AllSpelled [] := fun _ h => nomatch h

@[simp] private theorem allSpelled_cons {w : Word} {ws : List Word} :
    AllSpelled (w :: ws) ↔ w.Spelled ∧ AllSpelled ws := List.forall_mem_cons

@[simp] private theorem allSpelled_append {ws vs : List Word} :
    AllSpelled (ws ++ vs) ↔ AllSpelled ws ∧ AllSpelled vs := List.forall_mem_append

private theorem allSpelled_parens {ws : List Word} (h : AllSpelled ws) :
    AllSpelled (parens ws) := by
  simp only [parens, List.cons_append, allSpelled_cons, allSpelled_append]
  exact ⟨spelled_ofKind rfl, h, spelled_ofKind rfl, allSpelled_nil⟩

private theorem allSpelled_braces {ws : List Word} (h : AllSpelled ws) :
    AllSpelled (Stmt.braces ws) := by
  simp only [Stmt.braces, List.cons_append, allSpelled_cons, allSpelled_append]
  exact ⟨spelled_ofKind rfl, h, spelled_ofKind rfl, allSpelled_nil⟩

end Word

/-- The word of a literal is spelled. -/
theorem Literal.spelled_word (hspell : Decimal.Spells spell) {l : Literal} (h : l.Writable) :
    (l.word spell).Spelled := by
  cases l with
  | int n =>
    exact Word.spelled_int (Decimal.toList_toString_ne_nil _)
      fun _ hc => Decimal.isDigit_of_mem_toString hc
  | float x => exact Word.spelled_float (hspell x h).1
  | str s => exact Word.spelled_string h
  | bool b => cases b <;> exact Word.spelled_ofKind rfl
  | unit => exact Word.spelled_ofKind rfl

private theorem Infix.spelled (op : Infix) : (Word.ofKind op.kind).Spelled := by
  cases op with
  | binary op => cases op <;> exact Word.spelled_ofKind rfl
  | access | assign => exact Word.spelled_ofKind rfl

namespace Expr

private theorem allSpelled_enclose {fits : Rank → Bool} {e : Expr} {ws : List Word}
    (h : Word.AllSpelled ws) : Word.AllSpelled (e.enclose fits ws) := by
  rw [enclose]
  split
  · exact h
  · exact Word.allSpelled_parens h

private theorem allSpelled_infixWords {op : Infix} {a b : Expr} {ws vs : List Word}
    (hws : Word.AllSpelled ws) (hvs : Word.AllSpelled vs) :
    Word.AllSpelled (infixWords op a ws b vs) := by
  rw [infixWords, Word.allSpelled_append, Word.allSpelled_cons]
  exact ⟨allSpelled_enclose hws, op.spelled, allSpelled_enclose hvs⟩

mutual

/-- The words of an expression are spelled. -/
theorem allSpelled_words (hspell : Decimal.Spells spell) :
    (e : Expr) → e.Writable → Word.AllSpelled (e.words spell)
  | literal l, h => Word.allSpelled_cons.2 ⟨Literal.spelled_word hspell h, Word.allSpelled_nil⟩
  | name x, h => Word.allSpelled_cons.2 ⟨Word.spelled_ident h, Word.allSpelled_nil⟩
  | unary op e, h => by
    have hop : (Word.ofKind op.kind).Spelled := by cases op <;> exact Word.spelled_ofKind rfl
    exact Word.allSpelled_cons.2 ⟨hop, allSpelled_enclose (allSpelled_words hspell e h)⟩
  | binary op a b, h =>
    allSpelled_infixWords (allSpelled_words hspell a h.1) (allSpelled_words hspell b h.2)
  | access a b, h =>
    allSpelled_infixWords (allSpelled_words hspell a h.1) (allSpelled_words hspell b h.2)
  | assign a b, h =>
    allSpelled_infixWords (allSpelled_words hspell a h.1) (allSpelled_words hspell b h.2)
  | call f args, h =>
    Word.allSpelled_cons.2 ⟨Word.spelled_ident h.1,
      Word.allSpelled_parens (allSpelled_listWords hspell args h.2)⟩
  | hole, _ => Word.allSpelled_nil
termination_by structural e => e

/-- The words of expressions are spelled. -/
theorem allSpelled_listWords (hspell : Decimal.Spells spell) :
    (es : List Expr) → AllWritable es → Word.AllSpelled (listWords spell es)
  | [], _ => Word.allSpelled_nil
  | e :: es, h =>
    Word.allSpelled_append.2
      ⟨allSpelled_words hspell e h.1, allSpelled_moreWords hspell es h.2⟩
termination_by structural es => es

/-- The words of expressions after commas are spelled. -/
theorem allSpelled_moreWords (hspell : Decimal.Spells spell) :
    (es : List Expr) → AllWritable es → Word.AllSpelled (moreWords spell es)
  | [], _ => Word.allSpelled_nil
  | e :: es, h =>
    Word.allSpelled_cons.2 ⟨Word.spelled_ofKind rfl, Word.allSpelled_append.2
      ⟨allSpelled_words hspell e h.1, allSpelled_moreWords hspell es h.2⟩⟩
termination_by structural es => es

end

end Expr

namespace Stmt

private theorem allSpelled_nameWords {xs : List String}
    (h : ∀ x ∈ xs, Scan.isName x = true) : Word.AllSpelled (nameWords xs) := by
  cases xs with
  | nil => exact Word.allSpelled_nil
  | cons x xs =>
    rw [List.forall_mem_cons] at h
    refine Word.allSpelled_cons.2 ⟨Word.spelled_ident h.1, ?_⟩
    intro w hw
    obtain ⟨y, hy, hw⟩ := List.mem_flatMap.1 hw
    rcases List.mem_pair.1 hw with rfl | rfl
    · exact Word.spelled_ofKind rfl
    · exact Word.spelled_ident (h.2 y hy)

mutual

/-- The words of a statement are spelled. -/
theorem allSpelled_words (hspell : Decimal.Spells spell) :
    (s : Stmt) → s.Writable → Word.AllSpelled (s.words spell)
  | expr e, h => by
    simp only [words, Word.allSpelled_append, Word.allSpelled_cons]
    exact ⟨e.allSpelled_words hspell h, Word.spelled_ofKind rfl, Word.allSpelled_nil⟩
  | print e, h => by
    simp only [words, List.cons_append, Word.allSpelled_append, Word.allSpelled_cons]
    exact ⟨Word.spelled_ofKind rfl, e.allSpelled_words hspell h, Word.spelled_ofKind rfl,
      Word.allSpelled_nil⟩
  | block body, h => Word.allSpelled_braces (allSpelled_listWords hspell body h)
  | var x none, h => by
    simp only [words, Word.allSpelled_cons]
    exact ⟨Word.spelled_ofKind rfl, Word.spelled_ident h, Word.spelled_ofKind rfl,
      Word.allSpelled_nil⟩
  | var x (some e), h => by
    simp only [words, List.cons_append, Word.allSpelled_append, Word.allSpelled_cons]
    exact ⟨Word.spelled_ofKind rfl, Word.spelled_ident h.1, Word.spelled_ofKind rfl,
      e.allSpelled_words hspell h.2, Word.spelled_ofKind rfl, Word.allSpelled_nil⟩
  | branch cond yes no, h => by
    have hno : Word.AllSpelled
        (if no.isEmpty then [] else .ofKind .elseWord :: braces (listWords spell no)) := by
      split
      · exact Word.allSpelled_nil
      · exact Word.allSpelled_cons.2 ⟨Word.spelled_ofKind rfl,
          Word.allSpelled_braces (allSpelled_listWords hspell no h.2.2)⟩
    simp only [words, List.cons_append, Word.allSpelled_append, Word.allSpelled_cons]
    exact ⟨Word.spelled_ofKind rfl,
      ⟨Word.allSpelled_parens (cond.allSpelled_words hspell h.1),
        Word.allSpelled_braces (allSpelled_listWords hspell yes h.2.1)⟩, hno⟩
  | loop cond body, h => by
    simp only [words, List.cons_append, Word.allSpelled_append, Word.allSpelled_cons]
    exact ⟨Word.spelled_ofKind rfl, Word.allSpelled_parens (cond.allSpelled_words hspell h.1),
      Word.allSpelled_braces (allSpelled_listWords hspell body h.2)⟩
  | func name params body, h => by
    simp only [words, List.cons_append, Word.allSpelled_append, Word.allSpelled_cons]
    exact ⟨Word.spelled_ofKind rfl, Word.spelled_ident h.1,
      Word.allSpelled_parens (allSpelled_nameWords h.2.1),
      Word.allSpelled_braces (allSpelled_listWords hspell body h.2.2)⟩
  | builtin _ _, h => h.elim
  | ret none, _ => by
    simp only [words, Word.allSpelled_cons]
    exact ⟨Word.spelled_ofKind rfl, Word.spelled_ofKind rfl, Word.allSpelled_nil⟩
  | ret (some e), h => by
    simp only [words, List.cons_append, Word.allSpelled_append, Word.allSpelled_cons]
    exact ⟨Word.spelled_ofKind rfl, e.allSpelled_words hspell h, Word.spelled_ofKind rfl,
      Word.allSpelled_nil⟩
termination_by structural s => s

/-- The words of statements are spelled. -/
theorem allSpelled_listWords (hspell : Decimal.Spells spell) :
    (ss : List Stmt) → AllWritable ss → Word.AllSpelled (listWords spell ss)
  | [], _ => Word.allSpelled_nil
  | s :: ss, h =>
    Word.allSpelled_append.2
      ⟨allSpelled_words hspell s h.1, allSpelled_listWords hspell ss h.2⟩
termination_by structural ss => ss

end

end Stmt

/-- The source text of a program that can be written scans to its words. -/
theorem Program.scan_unparse (hspell : Decimal.Spells spell) {p : Program} (h : p.Writable) :
    ∃ ts, Scanned.ofString (p.unparse spell) = ⟨ts, none⟩ ∧
      ts.map Token.word = Stmt.listWords spell p := by
  rw [Scanned.ofString, Program.unparse, String.toList_ofList]
  exact Word.ofChars_spaced (Stmt.allSpelled_listWords hspell p h) .start

end Spelled

end Lox
