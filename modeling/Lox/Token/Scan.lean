import Lox.Text.Blank
import Lox.Text.Digit
import Lox.Token

/-!
# Scanning

Cuts a text into tokens. At each place the longest lexeme is taken, where digits with a point and
further digits after them are one number; white space and comments are skipped. Scanning stops at
a character with which no lexeme begins, and the tokens before it stand.
-/

namespace Lox

/-- What a run of characters at the start of a text is. -/
inductive Lexeme where
  | token (kind : Kind)
  | skipped
  deriving DecidableEq, Repr

namespace Scan

/-- Whether a name may begin with `c`. -/
def startsName (c : Char) : Bool := c.isAlpha || c = '_'

/-- Whether a name may go on with `c`. -/
def continuesName (c : Char) : Bool := c.isAlphanum || c = '_'

/-- The words with a meaning of their own. -/
def words : List (List Char × Kind) :=
  [("or".toList, .or), ("and".toList, .and), ("true".toList, .yes), ("false".toList, .no),
   ("nil".toList, .nil), ("fun".toList, .funWord), ("print".toList, .printWord),
   ("var".toList, .varWord), ("for".toList, .forWord), ("if".toList, .ifWord),
   ("else".toList, .elseWord), ("return".toList, .returnWord), ("while".toList, .whileWord)]

/-- The kind of a word: a keyword or a name. -/
def wordKind (cs : List Char) : Kind := (words.lookup cs).getD .ident

/-- The operator or punctuation mark with which a text begins, with its number of characters; two
characters go before one. -/
def sign? : List Char → Option (Kind × Nat)
  | '=' :: '=' :: _ => some (.equal, 2)
  | '!' :: '=' :: _ => some (.notEqual, 2)
  | '>' :: '=' :: _ => some (.greaterEqual, 2)
  | '<' :: '=' :: _ => some (.lowerEqual, 2)
  | '=' :: _ => some (.assign, 1)
  | '!' :: _ => some (.bang, 1)
  | '>' :: _ => some (.greater, 1)
  | '<' :: _ => some (.lower, 1)
  | '+' :: _ => some (.plus, 1)
  | '-' :: _ => some (.minus, 1)
  | '*' :: _ => some (.times, 1)
  | '/' :: _ => some (.divide, 1)
  | '.' :: _ => some (.dot, 1)
  | '~' :: _ => some (.tilde, 1)
  | '(' :: _ => some (.leftParen, 1)
  | ')' :: _ => some (.rightParen, 1)
  | '\x7b' :: _ => some (.leftBrace, 1)
  | '\x7d' :: _ => some (.rightBrace, 1)
  | ',' :: _ => some (.comma, 1)
  | ';' :: _ => some (.semicolon, 1)
  | _ => none

/-- A number at the start of a text that begins with a digit: with a fraction if a point and a
digit follow the digits. -/
def number (cs : List Char) : Kind × Nat :=
  let whole := (cs.takeWhile Text.isDigit).length
  match cs.drop whole with
  | '.' :: rest =>
    let fraction := (rest.takeWhile Text.isDigit).length
    if fraction = 0 then (.int, whole) else (.float, whole + 1 + fraction)
  | _ => (.int, whole)

/-- The lexeme at the start of a text, with its number of characters. -/
def lexeme? (cs : List Char) : Option (Lexeme × Nat) :=
  match cs with
  | [] => none
  | c :: rest =>
    if Text.isBlank c then some (.skipped, 1 + (rest.takeWhile Text.isBlank).length)
    else if Text.isDigit c then
      let (kind, count) := number cs
      some (.token kind, count)
    else if startsName c then
      let word := c :: rest.takeWhile continuesName
      some (.token (wordKind word), word.length)
    else if c = '"' then
      let body := rest.takeWhile (· ≠ '"')
      if (rest.drop body.length).isEmpty then none else some (.token .string, body.length + 2)
    else match c, rest with
      | '/', '/' :: line => some (.skipped, 2 + (line.takeWhile (· ≠ '\n')).length)
      | _, _ => (sign? cs).map fun s => (.token s.1, s.2)

end Scan

/-- The tokens of a text up to its end, or up to the place of a character with which no lexeme
begins. -/
structure Scanned where
  tokens : List Token
  stop : Option Place
  deriving DecidableEq, Repr

namespace Scanned

/-- The scanned text with one more token in front. -/
def cons (t : Token) (s : Scanned) : Scanned := ⟨t :: s.tokens, s.stop⟩

/-- Scans the text that starts at the place `p`. -/
def ofChars (p : Place) : List Char → Scanned
  | [] => ⟨[], none⟩
  | c :: cs =>
    match Scan.lexeme? (c :: cs) with
    | none | some (_, 0) => ⟨[], some p⟩
    | some (lexeme, count + 1) =>
      let text := (c :: cs).take (count + 1)
      let rest := ofChars (p.advance text) ((c :: cs).drop (count + 1))
      match lexeme with
      | .skipped => rest
      | .token kind => rest.cons ⟨kind, String.ofList text, p⟩
termination_by cs => cs.length
decreasing_by
  simp only [List.length_drop, List.length_cons]
  omega

/-- Scans a whole text. -/
def ofString (source : String) : Scanned := ofChars .start source.toList

/-- An empty text has no token. -/
theorem ofChars_nil (p : Place) : ofChars p [] = ⟨[], none⟩ := by
  rw [ofChars]

end Scanned

end Lox
