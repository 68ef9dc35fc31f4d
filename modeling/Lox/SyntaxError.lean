import Lox.Text.Lines
import Lox.Token.Scan
import Lox.Grammar.Parse

/-!
# Reading source text

Scans and parses a whole source text. The error names the first token or character in the source
that does not fit, by its place and by the line of display that holds it. Where the text ends too
early, the place is that of the start of its last token.
-/

namespace Lox

/-- A source text that is no program: the line shown, its number, and the column at which the text
goes wrong. -/
structure SyntaxError where
  excerpt : String
  line : Nat
  column : Nat
  deriving DecidableEq, Repr

namespace SyntaxError

/-- The lines of display of a source text; there is always one. -/
def linesOf (source : String) : List (List Char) :=
  match Text.lines source.toList with
  | [] => [[]]
  | ls => ls

/-- The error at a line and a column of `source`. Where the lines of display have no such line the
error points just past the last of them. Models `_parse_error`. -/
def locate (source : String) (line : Option Int) (column : Int) : SyntaxError :=
  let ls := linesOf source
  let last := ls.getLastD []
  let atEnd : SyntaxError := ⟨String.ofList last, ls.length, last.length + 1⟩
  match line with
  | none => atEnd
  | some n =>
    if n < 1 then atEnd
    else match ls[n.toNat - 1]? with
      | none => atEnd
      | some l => ⟨String.ofList l, n.toNat, (max column 1).toNat⟩

/-- The error at a place of `source`. -/
def atPlace (source : String) (p : Place) : SyntaxError := locate source (some p.line) p.column

/-- The place at which a scanned text goes wrong, `rest` being the tokens that do not fit. -/
def placeOf (scanned : Scanned) (rest : List Token) : Place :=
  match rest with
  | t :: _ => t.place
  | [] =>
    match scanned.stop with
    | some p => p
    | none => (scanned.tokens.getLast?.map Token.place).getD .start

/-- The offset in the excerpt that is pointed at. Part of `ParseError.__init__`. -/
def offset (e : SyntaxError) : Nat := min (e.column - 1) e.excerpt.length

end SyntaxError

namespace Tree

/-- The parse tree of a source text. Models `parse`. -/
def ofSource (source : String) : Except SyntaxError Tree :=
  let scanned := Scanned.ofString source
  match ofTokens scanned.tokens, scanned.stop with
  | .error rest, _ => .error (SyntaxError.atPlace source (SyntaxError.placeOf scanned rest))
  | .ok _, some p => .error (SyntaxError.atPlace source p)
  | .ok t, none => .ok t

end Tree

end Lox
