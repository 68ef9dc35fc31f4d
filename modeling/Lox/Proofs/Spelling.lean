import Lox.Decimal.Whole
import Lox.Token.Scan

/-!
# Spelling

How each kind of token is written, and that scanning reads it back. A word is a token without its
place. In front of a blank, what is written for a word is one lexeme of its kind, so a text of words
with blanks between them scans to these words.
-/

namespace Lox

/-! ### Scanning one lexeme -/

namespace Scanned

/-- Puts a lexeme with the text `cs`, which starts at the place `p`, before what was scanned after
it. -/
def before (p : Place) (cs : List Char) : Lexeme → Scanned → Scanned
  | .skipped, s => s
  | .token kind, s => s.cons ⟨kind, String.ofList cs, p⟩

/-- The lexeme at the start of a text is scanned, and then the text after it. -/
theorem ofChars_append {cs rest : List Char} {lexeme : Lexeme} (p : Place) (hcs : cs ≠ [])
    (h : Scan.lexeme? (cs ++ rest) = some (lexeme, cs.length)) :
    ofChars p (cs ++ rest) = before p cs lexeme (ofChars (p.advance cs) rest) := by
  cases cs with
  | nil => exact (hcs rfl).elim
  | cons c cs =>
    have htake : (c :: (cs ++ rest)).take (cs.length + 1) = c :: cs := by
      rw [List.take_succ_cons, List.take_left']
      rfl
    have hdrop : (c :: (cs ++ rest)).drop (cs.length + 1) = rest := by
      rw [List.drop_succ_cons, List.drop_left']
      rfl
    rw [List.cons_append] at h ⊢
    rw [ofChars, h]
    simp only [List.length_cons, htake, hdrop]
    cases lexeme <;> rfl

/-- Whether the pieces of a text are read one after the other, each as the lexeme beside it. -/
def readsPieces : List (Lexeme × List Char) → Bool
  | [] => true
  | (lexeme, cs) :: rest =>
    !cs.isEmpty && Scan.lexeme? (cs ++ rest.flatMap Prod.snd) = some (lexeme, cs.length)
      && readsPieces rest

/-- What pieces are read as that start at the place `p`. -/
def ofPieces (p : Place) : List (Lexeme × List Char) → Scanned
  | [] => ⟨[], none⟩
  | (lexeme, cs) :: rest => before p cs lexeme (ofPieces (p.advance cs) rest)

/-- A text in pieces is scanned piece by piece. -/
theorem ofChars_pieces (p : Place) (pieces : List (Lexeme × List Char))
    (h : readsPieces pieces = true) :
    ofChars p (pieces.flatMap Prod.snd) = ofPieces p pieces := by
  induction pieces generalizing p with
  | nil => exact ofChars_nil p
  | cons piece rest ih =>
    simp only [readsPieces, Bool.and_eq_true, Bool.not_eq_true', List.isEmpty_eq_false_iff,
      decide_eq_true_eq] at h
    rw [List.flatMap_cons, ofChars_append p h.1.1 h.1.2, ih _ h.2]
    rfl

/-- A whole text in pieces. -/
theorem ofString_pieces {source : String} (pieces : List (Lexeme × List Char))
    (hsource : source.toList = pieces.flatMap Prod.snd) (h : readsPieces pieces = true) :
    ofString source = ofPieces .start pieces := by
  rw [ofString, hsource, ofChars_pieces .start pieces h]

end Scanned

/-! ### Characters -/

namespace Text

/-- No digit is a blank. -/
theorem isBlank_of_isDigit {c : Char} (h : isDigit c = true) : isBlank c = false := by
  have hapart : ∀ z ∈ digitZeros, ∀ r ∈ blankRanges, z + 9 < r.1 ∨ r.2 < z := by decide
  rw [isDigit, digit?, Option.isSome_map, List.find?_isSome] at h
  obtain ⟨z, hz, hc⟩ := h
  simp only [Bool.and_eq_true, decide_eq_true_eq] at hc
  rw [isBlank, List.any_eq_false]
  intro r hr
  have hzr := hapart z hz r hr
  simp only [Bool.and_eq_true, decide_eq_true_eq]
  omega

end Text

namespace Scan

private theorem toNat_of_startsName {c : Char} (h : startsName c = true) :
    65 ≤ c.toNat ∧ c.toNat ≤ 122 := by
  have hrange (low high : UInt32) (hc : c.val ≥ low ∧ c.val ≤ high) :
      low.toNat ≤ c.toNat ∧ c.toNat ≤ high.toNat :=
    ⟨UInt32.le_iff_toNat_le.1 hc.1, UInt32.le_iff_toNat_le.1 hc.2⟩
  rw [startsName, Bool.or_eq_true] at h
  rcases h with h | h
  · rcases (Bool.or_eq_true c.isUpper c.isLower).mp h with h | h
    · have hc := hrange 65 90 (of_decide_eq_true h)
      exact ⟨hc.1, Nat.le_trans hc.2 (by decide)⟩
    · have hlower := (Bool.and_eq_true _ _).mp h
      have hc := hrange 97 122 ⟨of_decide_eq_true hlower.1, of_decide_eq_true hlower.2⟩
      exact ⟨Nat.le_trans (by decide) hc.1, hc.2⟩
  · rw [of_decide_eq_true h]
    decide

/-- What a name may begin with is no blank. -/
theorem isBlank_of_startsName {c : Char} (h : startsName c = true) : Text.isBlank c = false := by
  have hrange := toNat_of_startsName h
  have hapart : ∀ r ∈ Text.blankRanges, r.2 < 65 ∨ 122 < r.1 := by decide
  rw [Text.isBlank, List.any_eq_false]
  intro r hr
  have hr := hapart r hr
  simp only [Bool.and_eq_true, decide_eq_true_eq]
  omega

/-- What a name may begin with is no digit. -/
theorem isDigit_of_startsName {c : Char} (h : startsName c = true) : Text.isDigit c = false := by
  have hrange := toNat_of_startsName h
  have hapart : ∀ z ∈ Text.digitZeros, z + 9 < 65 ∨ 122 < z := by decide
  rw [Text.isDigit, Text.digit?, Option.isSome_map, ← Bool.not_eq_true, List.find?_isSome]
  rintro ⟨z, hz, hc⟩
  have hz := hapart z hz
  simp only [Bool.and_eq_true, decide_eq_true_eq] at hc
  omega

/-! ### Kinds of lexemes -/

/-- A text that begins with a blank begins with blanks that are skipped. -/
theorem lexeme?_blank {c : Char} (rest : List Char) (hc : Text.isBlank c = true) :
    lexeme? (c :: rest) = some (.skipped, 1 + (rest.takeWhile Text.isBlank).length) := by
  unfold lexeme?
  simp only [hc, if_true]

/-- A text that begins with a digit begins with a number. -/
theorem lexeme?_digit {c : Char} (rest : List Char) (hc : Text.isDigit c = true) :
    lexeme? (c :: rest) = some (.token (number (c :: rest)).1, (number (c :: rest)).2) := by
  unfold lexeme?
  simp only [Text.isBlank_of_isDigit hc, hc, Bool.false_eq_true, if_false, if_true]

/-- A text that begins as a name does begins with a word. -/
theorem lexeme?_name {c : Char} (rest : List Char) (hc : startsName c = true) :
    lexeme? (c :: rest) =
      some (.token (wordKind (c :: rest.takeWhile continuesName)),
        (c :: rest.takeWhile continuesName).length) := by
  unfold lexeme?
  simp only [isBlank_of_startsName hc, isDigit_of_startsName hc, hc, Bool.false_eq_true, if_false,
    if_true]

/-- A text that begins with a quotation mark, and has another, begins with a string. -/
theorem lexeme?_quote (body rest : List Char) (hbody : '"' ∉ body) :
    lexeme? ('"' :: (body ++ '"' :: rest)) = some (.token .string, body.length + 2) := by
  have hall : ∀ c ∈ body, decide (c ≠ '"') = true := fun c hc =>
    decide_eq_true fun hquote => hbody (hquote ▸ hc)
  have htake : (body ++ '"' :: rest).takeWhile (fun c => decide (c ≠ '"')) = body := by
    rw [List.takeWhile_append_of_pos hall]
    exact List.append_nil body
  have hdrop : (body ++ '"' :: rest).drop body.length = '"' :: rest := List.drop_left' rfl
  have hblank : Text.isBlank '"' = false := by decide
  have hdigit : Text.isDigit '"' = false := by decide
  have hname : startsName '"' = false := by decide
  unfold lexeme?
  simp only [hblank, hdigit, hname, Bool.false_eq_true, if_false, if_true, htake, hdrop,
    List.isEmpty_cons]

end Scan

/-! ### Words -/

/-- A token without its place. -/
structure Word where
  kind : Kind
  text : String
  deriving DecidableEq, Repr

/-- A token as a word. -/
def Token.word (t : Token) : Word := ⟨t.kind, t.text⟩

/-- The text of a token whose kind is always written in the same way. -/
def Kind.spelling? : Kind → Option String
  | yes => some "true" | no => some "false" | nil => some "nil"
  | assign => some "=" | or => some "or" | and => some "and" | equal => some "=="
  | notEqual => some "!=" | greater => some ">" | greaterEqual => some ">="
  | lower => some "<" | lowerEqual => some "<=" | plus => some "+" | minus => some "-"
  | times => some "*" | divide => some "/" | dot => some "." | bang => some "!"
  | tilde => some "~"
  | funWord => some "fun" | printWord => some "print" | varWord => some "var"
  | forWord => some "for" | ifWord => some "if" | elseWord => some "else"
  | returnWord => some "return" | whileWord => some "while"
  | leftParen => some "(" | rightParen => some ")"
  | leftBrace => some "\x7b" | rightBrace => some "\x7d"
  | comma => some "," | semicolon => some ";"
  | float | int | string | ident | foreign _ => none

namespace Scan

/-- Whether a text is a name: it has the characters of one, and it is no word with a meaning of its
own. -/
def isName (x : String) : Bool :=
  match x.toList with
  | [] => false
  | c :: cs => startsName c && cs.all continuesName && (words.lookup (c :: cs)).isNone

/-- A name has nothing but the characters of names. -/
theorem continuesName_of_isName {x : String} (h : isName x = true) :
    ∀ c ∈ x.toList, continuesName c = true := by
  rw [isName] at h
  cases hx : x.toList with
  | nil => exact List.forall_mem_nil _
  | cons c cs =>
    rw [hx] at h
    simp only [Bool.and_eq_true, List.all_eq_true] at h
    have hc : continuesName c = true := by
      have hstart := h.1.1
      rw [startsName, Bool.or_eq_true] at hstart
      rw [continuesName, Char.isAlphanum, Bool.or_eq_true, Bool.or_eq_true]
      exact hstart.imp .inl id
    exact List.forall_mem_cons.2 ⟨hc, h.1.2⟩

/-- Whether a text is a number with a fraction: digits, a point and digits. -/
def IsFraction (s : String) : Prop :=
  ∃ whole fraction : List Char, s.toList = whole ++ '.' :: fraction ∧
    whole ≠ [] ∧ (∀ c ∈ whole, Text.isDigit c = true) ∧
    fraction ≠ [] ∧ ∀ c ∈ fraction, Text.isDigit c = true

end Scan

namespace Word

/-- The word of a kind that is always written in the same way. -/
def ofKind (k : Kind) : Word := ⟨k, k.spelling?.getD ""⟩

/-- A text of words, each with a blank after it. -/
def spaced (ws : List Word) : List Char := ws.flatMap fun w => w.text.toList ++ [' ']

/-- In front of a blank the text of the word is one lexeme, of its kind. -/
def Spelled (w : Word) : Prop :=
  ∀ rest, Scan.lexeme? (w.text.toList ++ ' ' :: rest) =
    some (.token w.kind, w.text.toList.length)

/-- What is always written in the same way is read back. -/
theorem spelled_ofKind {k : Kind} (h : k.spelling?.isSome = true) : (ofKind k).Spelled := by
  intro rest
  cases k with
  | float | int | string | ident | foreign => exact nomatch h
  | _ => rfl

private theorem takeWhile_blank {p : Char → Bool} {cs : List Char} (rest : List Char)
    (hcs : ∀ c ∈ cs, p c = true) (hblank : p ' ' = false) :
    (cs ++ ' ' :: rest).takeWhile p = cs := by
  rw [List.takeWhile_append_of_pos hcs, List.takeWhile_cons, hblank]
  exact List.append_nil cs

/-- A name is read back. -/
theorem spelled_ident {x : String} (h : Scan.isName x = true) : (Word.mk .ident x).Spelled := by
  intro rest
  show Scan.lexeme? (x.toList ++ ' ' :: rest) = some (.token .ident, x.toList.length)
  rw [Scan.isName] at h
  cases hx : x.toList with
  | nil =>
    rw [hx] at h
    exact nomatch h
  | cons c cs =>
    rw [hx] at h
    simp only [Bool.and_eq_true, List.all_eq_true, Option.isNone_iff_eq_none] at h
    have htake := takeWhile_blank rest h.1.2 (by decide)
    rw [List.cons_append, Scan.lexeme?_name _ h.1.1, htake, Scan.wordKind, h.2, Option.getD_none]

/-- Digits are read back. -/
theorem spelled_int {s : String} (hs : s.toList ≠ [])
    (h : ∀ c ∈ s.toList, Text.isDigit c = true) : (Word.mk .int s).Spelled := by
  intro rest
  show Scan.lexeme? (s.toList ++ ' ' :: rest) = some (.token .int, s.toList.length)
  cases hcs : s.toList with
  | nil => exact (hs hcs).elim
  | cons c cs =>
    rw [hcs] at h
    have htake := takeWhile_blank rest h (by decide)
    have hdrop : (c :: cs ++ ' ' :: rest).drop (c :: cs).length = ' ' :: rest := List.drop_left' rfl
    rw [List.cons_append] at htake hdrop ⊢
    have hnumber : Scan.number (c :: (cs ++ ' ' :: rest)) = (.int, (c :: cs).length) := by
      rw [Scan.number, htake, hdrop]
      rfl
    rw [Scan.lexeme?_digit _ (h c List.mem_cons_self), hnumber]

/-- A number with a fraction is read back. -/
theorem spelled_float {s : String} (h : Scan.IsFraction s) : (Word.mk .float s).Spelled := by
  obtain ⟨whole, fraction, hs, hwhole, hdigits, hfraction, hdigits'⟩ := h
  intro rest
  show Scan.lexeme? (s.toList ++ ' ' :: rest) = some (.token .float, s.toList.length)
  cases whole with
  | nil => exact (hwhole rfl).elim
  | cons c whole =>
    have htake : (c :: (whole ++ '.' :: (fraction ++ ' ' :: rest))).takeWhile Text.isDigit =
        c :: whole := by
      rw [← List.cons_append, List.takeWhile_append_of_pos hdigits]
      exact List.append_nil _
    have hdrop : (c :: (whole ++ '.' :: (fraction ++ ' ' :: rest))).drop (c :: whole).length =
        '.' :: (fraction ++ ' ' :: rest) := List.drop_left' rfl
    have htake' := takeWhile_blank rest hdigits' (by decide)
    have hlength : fraction.length ≠ 0 := fun hnil => hfraction (List.length_eq_zero_iff.1 hnil)
    have hnumber : Scan.number (c :: (whole ++ '.' :: (fraction ++ ' ' :: rest))) =
        (.float, (c :: whole).length + 1 + fraction.length) := by
      rw [Scan.number, htake, hdrop]
      simp only [htake', hlength, if_false]
    rw [hs, List.append_assoc, List.cons_append, List.cons_append,
      Scan.lexeme?_digit _ (hdigits c List.mem_cons_self), hnumber, List.length_append,
      List.length_cons, List.length_cons]
    simp only [Nat.add_assoc, Nat.add_comm 1]

/-- A text in quotation marks that has none itself is read back. -/
theorem spelled_string {body : List Char} (h : '"' ∉ body) :
    (Word.mk .string (String.ofList ('"' :: (body ++ ['"'])))).Spelled := by
  intro rest
  rw [String.toList_ofList]
  show Scan.lexeme? ('"' :: (body ++ ['"'] ++ ' ' :: rest)) =
    some (.token .string, ('"' :: (body ++ ['"'])).length)
  rw [List.append_assoc, List.singleton_append, Scan.lexeme?_quote _ _ h]
  simp

private theorem Spelled.exists_cons {w : Word} (h : w.Spelled) :
    ∃ c cs, w.text.toList = c :: cs ∧ Text.isBlank c = false := by
  have hlex := h []
  cases hw : w.text.toList with
  | nil =>
    rw [hw] at hlex
    exact nomatch hlex
  | cons c cs =>
    refine ⟨c, cs, rfl, ?_⟩
    rw [← Bool.not_eq_true]
    intro hblank
    rw [hw, List.cons_append, Scan.lexeme?_blank _ hblank] at hlex
    exact nomatch hlex

private theorem takeWhile_isBlank_spaced {ws : List Word} (h : ∀ w ∈ ws, w.Spelled) :
    (spaced ws).takeWhile Text.isBlank = [] := by
  cases ws with
  | nil => rfl
  | cons w ws =>
    obtain ⟨c, cs, hw, hc⟩ := (h w List.mem_cons_self).exists_cons
    rw [spaced, List.flatMap_cons, hw, List.append_assoc, List.cons_append, List.takeWhile_cons, hc]
    rfl

/-- A text of words that are spelled scans to these words. -/
theorem ofChars_spaced {ws : List Word} (h : ∀ w ∈ ws, w.Spelled) (p : Place) :
    ∃ ts, Scanned.ofChars p (spaced ws) = ⟨ts, none⟩ ∧ ts.map Token.word = ws := by
  induction ws generalizing p with
  | nil => exact ⟨[], Scanned.ofChars_nil p, rfl⟩
  | cons w ws ih =>
    have hws : ∀ w' ∈ ws, w'.Spelled := fun w' hw' => h w' (List.mem_cons_of_mem _ hw')
    have hw := h w List.mem_cons_self
    have hne : w.text.toList ≠ [] := by
      obtain ⟨c, cs, hcs, -⟩ := hw.exists_cons
      rw [hcs]
      exact List.cons_ne_nil c cs
    have hsplit : spaced (w :: ws) = w.text.toList ++ ' ' :: spaced ws := by
      rw [spaced, List.flatMap_cons, List.append_assoc]
      rfl
    have hblank : Scan.lexeme? ([' '] ++ spaced ws) = some (.skipped, [' '].length) := by
      rw [List.singleton_append, Scan.lexeme?_blank _ (by decide), takeWhile_isBlank_spaced hws]
      rfl
    have hskip (q : Place) :
        Scanned.ofChars q (' ' :: spaced ws) = Scanned.ofChars (q.advance [' ']) (spaced ws) :=
      Scanned.ofChars_append q (List.cons_ne_nil ' ' []) hblank
    obtain ⟨ts, hts, hwords⟩ := ih hws ((p.advance w.text.toList).advance [' '])
    rw [hsplit, Scanned.ofChars_append p hne (hw (spaced ws)), hskip, hts]
    refine ⟨⟨w.kind, w.text, p⟩ :: ts, ?_, ?_⟩
    · rw [Scanned.before, Scanned.cons, String.ofList_toList]
    · rw [List.map_cons, hwords]
      rfl

end Word

end Lox
