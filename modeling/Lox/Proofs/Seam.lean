import Lox.Proofs.Lexemes

/-!
# Seams

Two texts with a blank between them. No token but a string has a blank in it, and a string that
goes on over a blank is still open there, so a blank ends the lexeme before it unless that is
skipped as well. A text that is read to its end therefore gives the same words with a line feed and
another text after it, and the words of the other text follow.
-/

namespace Lox

/-! ### Blanks in lexemes -/

namespace Scan

/-- What a name goes on with is no blank. -/
theorem isBlank_of_continuesName {c : Char} (h : continuesName c = true) :
    Text.isBlank c = false := by
  rw [continuesName, Bool.or_eq_true] at h
  rcases h with h | h
  · rcases (Bool.or_eq_true c.isAlpha c.isDigit).mp h with halpha | hdigit
    · exact isBlank_of_startsName ((Bool.or_eq_true _ _).mpr (.inl halpha))
    · have hrange := (Bool.and_eq_true _ _).mp hdigit
      have hlow : 48 ≤ c.toNat := UInt32.le_iff_toNat_le.1 (of_decide_eq_true hrange.1)
      have hhigh : c.toNat ≤ 57 := UInt32.le_iff_toNat_le.1 (of_decide_eq_true hrange.2)
      have hapart : ∀ r ∈ Text.blankRanges, r.2 < 48 ∨ 57 < r.1 := by decide
      rw [Text.isBlank, List.any_eq_false]
      intro r hr
      have hr := hapart r hr
      simp only [Bool.and_eq_true, decide_eq_true_eq]
      omega
  · rw [of_decide_eq_true h]
    decide

/-- Nothing begins with a quotation mark that has no other after it. -/
theorem lexeme?_open {body : List Char} (hbody : '"' ∉ body) : lexeme? ('"' :: body) = none := by
  have hall : ∀ c ∈ body, decide (c ≠ '"') = true := fun c hc =>
    decide_eq_true fun hquote => hbody (hquote ▸ hc)
  have htake : body.takeWhile (fun c => decide (c ≠ '"')) = body :=
    List.takeWhile_eq_self_iff.2 hall
  have hblank : Text.isBlank '"' = false := by decide
  have hdigit : Text.isDigit '"' = false := by decide
  have hname : startsName '"' = false := by decide
  unfold lexeme?
  simp only [hblank, hdigit, hname, Bool.false_eq_true, if_false, if_true, htake, List.drop_length,
    List.isEmpty_nil]

end Scan

private theorem all_of_spelling {k : Kind} {s : String} (h : k.spelling? = some s) :
    (s.toList.all fun c => !Text.isBlank c) = true := by
  cases k <;> cases h <;> rfl

/-- Only strings have blanks in them. -/
theorem Kind.Writes.isBlank_eq_false {k : Kind} {cs : List Char} (h : k.Writes cs)
    (hk : k ≠ .string) : ∀ c ∈ cs, Text.isBlank c = false := by
  intro c hc
  obtain hchars | ⟨s, hs, rfl⟩ := h.chars hk
  · rcases hchars c hc with hdigit | rfl | hname
    · exact Text.isBlank_of_isDigit hdigit
    · decide
    · exact Scan.isBlank_of_continuesName hname
  · have hall := List.all_eq_true.1 (all_of_spelling hs) c hc
    simpa using hall

namespace Lexeme

variable {l : Lexeme} {cs rest us : List Char} {b : Char}

/-- A string is open before each of its characters but the first. -/
theorem Writes.open_before {tail : List Char} (h : Kind.string.Writes (us ++ b :: tail))
    (hus : us ≠ []) : ∃ body, '"' ∉ body ∧ us = '"' :: body := by
  obtain ⟨u, us, rfl⟩ := List.exists_cons_of_ne_nil hus
  obtain ⟨body, hbody, htext⟩ := h
  rw [List.cons_append, List.cons_eq_cons] at htext
  obtain ⟨rfl, htext⟩ := htext
  refine ⟨us, fun hquote => hbody ?_, rfl⟩
  -- the last quotation mark stands behind the character, or is the character
  have hlast := congrArg List.dropLast htext
  rw [List.dropLast_concat, List.dropLast_append_of_ne_nil (List.cons_ne_nil b tail)] at hlast
  rw [← hlast]
  exact List.mem_append_left _ hquote

/-- A text of a lexeme that goes on over a blank has, before that blank, a text that is skipped, or
a string that is still open. -/
theorem Writes.before_blank {tail : List Char} (h : l.Writes (us ++ b :: tail))
    (hus : us ≠ []) (hb : Text.isBlank b = true) :
    (skipped.Writes us ∧ (b = '\n' → ∀ c ∈ us, Text.isBlank c = true)) ∨
      ∃ body, '"' ∉ body ∧ us = '"' :: body := by
  cases us with
  | nil => exact (hus rfl).elim
  | cons u us =>
    cases l with
    | skipped =>
      rcases h with ⟨-, hall⟩ | ⟨line, hline, htext⟩
      · have hblank : ∀ c ∈ u :: us, Text.isBlank c = true := fun c hc =>
          hall c (List.mem_append_left _ hc)
        exact .inl ⟨.inl ⟨hus, hblank⟩, fun _ => hblank⟩
      · rw [List.cons_append, List.cons_eq_cons] at htext
        obtain ⟨rfl, htext⟩ := htext
        cases us with
        | nil =>
          rw [List.nil_append, List.cons_eq_cons] at htext
          exact absurd hb (by rw [htext.1]; decide)
        | cons u' us =>
          rw [List.cons_append, List.cons_eq_cons] at htext
          obtain ⟨rfl, rfl⟩ := htext
          refine .inl ⟨.inr ⟨us, fun hmem => hline ?_, rfl⟩, fun hbreak => (hline ?_).elim⟩
          · exact List.mem_append_left _ hmem
          · rw [← hbreak]
            exact List.mem_append_right _ List.mem_cons_self
    | token k =>
      have hmem : b ∈ u :: us ++ b :: tail := List.mem_append_right _ List.mem_cons_self
      by_cases hk : k = .string
      · subst hk
        exact .inr (Writes.open_before h hus)
      · exact absurd hb (by rw [Kind.Writes.isBlank_eq_false h hk b hmem]; decide)

/-- At the start of a text the longest lexeme is one. -/
theorem Longest.unique {l' : Lexeme} (h : l.Longest cs rest) (h' : l'.Longest cs rest) :
    l = l' := by
  have hlex := longest_iff.1 h
  rw [longest_iff.1 h'] at hlex
  cases hlex
  rfl

/-- A start of `us ++ b :: more` is a start of `us`, or it goes on over `b`. -/
theorem prefix_append_cons {cs' more : List Char} (h : cs' <+: us ++ b :: more) :
    cs' <+: us ∨ ∃ tail, cs' = us ++ b :: tail := by
  rcases List.prefix_or_prefix_of_prefix h (List.prefix_append us (b :: more)) with hshort | hlong
  · exact .inl hshort
  · obtain ⟨tail, rfl⟩ := hlong
    rw [List.prefix_append_right_inj] at h
    cases tail with
    | nil => exact .inl (by simp)
    | cons c tail =>
      obtain ⟨rfl, -⟩ := List.cons_prefix_cons.1 h
      exact .inr ⟨tail, rfl⟩

/-- What is longest in a text is longest with a blank and more after that text, unless it is
skipped and is all of the text. -/
theorem Longest.before_blank (h : l.Longest cs rest) (hb : Text.isBlank b = true)
    (more : List Char) :
    l.Longest cs (rest ++ b :: more) ∨
      rest = [] ∧ l = .skipped ∧ (b = '\n' → ∀ c ∈ cs, Text.isBlank c = true) := by
  by_cases hlonger : ∃ (l' : Lexeme) (cs' : List Char),
      l'.Writes cs' ∧ cs' <+: cs ++ (rest ++ b :: more) ∧ cs.length < cs'.length
  · right
    obtain ⟨l', cs', hwritten, hprefix, hlength⟩ := hlonger
    have hne : cs ++ rest ≠ [] := fun hnil =>
      h.written.ne_nil (List.append_eq_nil_iff.1 hnil).1
    rw [← List.append_assoc] at hprefix
    rcases prefix_append_cons hprefix with hshort | ⟨tail, rfl⟩
    · have hle := h.longest l' cs' hwritten hshort
      omega
    rcases hwritten.before_blank hne hb with ⟨hskipped, hblank⟩ | ⟨body, hbody, htext⟩
    · have hle := h.longest _ _ hskipped (List.prefix_refl _)
      rw [List.length_append] at hle
      obtain rfl : rest = [] := List.length_eq_zero_iff.1 (by omega)
      rw [List.append_nil] at hskipped hblank
      exact ⟨rfl, h.unique ⟨hskipped, h.longest⟩, hblank⟩
    · have hnone := Scan.lexeme?_open hbody
      rw [← htext, longest_iff.1 h] at hnone
      cases hnone
  · left
    refine ⟨h.written, fun l' cs' hwritten hprefix => ?_⟩
    by_contra hle
    exact hlonger ⟨l', cs', hwritten, hprefix, by omega⟩

end Lexeme

/-! ### Readings -/

/-- What is read from a text, wherever it stands: its words, and whether they are all of it. -/
structure Reading where
  words : List Word
  whole : Bool
  deriving DecidableEq, Repr

/-- The words of a lexeme with the text `cs`. -/
def Lexeme.words (cs : List Char) : Lexeme → List Word
  | skipped => []
  | token k => [⟨k, String.ofList cs⟩]

/-- What was scanned, without the places. -/
def Scanned.reading (s : Scanned) : Reading := ⟨s.tokens.map Token.word, s.stop.isNone⟩

namespace Reading

variable {l : Lexeme} {cs rest : List Char}

/-- What is read if the words `ws` stand in front. -/
def prepend (ws : List Word) (r : Reading) : Reading := ⟨ws ++ r.words, r.whole⟩

/-- Words in front of words. -/
theorem prepend_prepend (ws vs : List Word) (r : Reading) :
    (r.prepend vs).prepend ws = r.prepend (ws ++ vs) := by
  simp only [prepend, List.append_assoc]

/-- What is read from a text. -/
def ofChars (cs : List Char) : Reading := (Scanned.ofChars .start cs).reading

private theorem reading_before (p : Place) (cs : List Char) (l : Lexeme) (s : Scanned) :
    (Scanned.before p cs l s).reading = s.reading.prepend (l.words cs) := by
  cases l <;> rfl

/-- What is read does not depend on where the text stands. -/
theorem reading_ofChars (p : Place) (cs : List Char) :
    (Scanned.ofChars p cs).reading = ofChars cs := by
  have hplace (s : Scanned) (hs : Scanned.Cuts p cs s) (q : Place) :
      (Scanned.ofChars q cs).reading = s.reading := by
    induction hs generalizing q with
    | done => rw [Scanned.ofChars_nil]
    | stuck hcs h =>
      rw [Scanned.ofChars_stuck q hcs (Lexeme.none_iff.1 h)]
      rfl
    | lexeme h _ ih =>
      rw [Scanned.ofChars_append q h.written.ne_nil (Lexeme.longest_iff.1 h), reading_before, ih,
        reading_before]
  exact (hplace _ (Scanned.cuts_ofChars p cs) .start).symm

/-- The longest lexeme is read, and then the text after it. -/
theorem ofChars_of_longest (h : l.Longest cs rest) :
    ofChars (cs ++ rest) = (ofChars rest).prepend (l.words cs) := by
  rw [ofChars, Scanned.ofChars_append _ h.written.ne_nil (Lexeme.longest_iff.1 h), reading_before,
    reading_ofChars]

/-- A blank in front of a text does not matter. -/
theorem ofChars_blank {c : Char} (hc : Text.isBlank c = true) (cs : List Char) :
    ofChars (c :: cs) = ofChars cs := by
  have hskip {c : Char} (hc : Text.isBlank c = true) (cs : List Char) :
      ofChars (c :: cs) = ofChars (cs.dropWhile Text.isBlank) := by
    have hlex := Scan.lexeme?_blank cs hc
    have hsplit : c :: cs = (c :: cs.takeWhile Text.isBlank) ++ cs.dropWhile Text.isBlank := by
      rw [List.cons_append, List.takeWhile_append_dropWhile]
    rw [hsplit] at hlex ⊢
    rw [Nat.add_comm] at hlex
    exact ofChars_of_longest (Lexeme.longest_iff.2 hlex)
  rw [hskip hc]
  cases cs with
  | nil => rfl
  | cons d ds =>
    by_cases hd : Text.isBlank d = true
    · rw [List.dropWhile_cons_of_pos hd, hskip hd]
    · rw [List.dropWhile_cons_of_neg hd]

/-- Blanks in front of a text do not matter. -/
theorem ofChars_blanks (hcs : ∀ c ∈ cs, Text.isBlank c = true) (ds : List Char) :
    ofChars (cs ++ ds) = ofChars ds := by
  induction cs with
  | nil => rfl
  | cons c cs ih =>
    obtain ⟨hc, hcs⟩ := List.forall_mem_cons.1 hcs
    rw [List.cons_append, ofChars_blank hc, ih hcs]

private theorem ofChars_newline_of_cuts {p : Place} {s : Scanned} (hs : Scanned.Cuts p cs s)
    (h : s.reading.whole = true) (ds : List Char) :
    ofChars (cs ++ '\n' :: ds) = (ofChars ds).prepend s.reading.words := by
  have hbreak : Text.isBlank '\n' = true := by decide
  induction hs with
  | done => exact ofChars_blank hbreak ds
  | stuck => cases h
  | @lexeme p l cs rest s hl _ ih =>
    rw [reading_before] at h ⊢
    have hwords : (s.reading.prepend (l.words cs)).words = l.words cs ++ s.reading.words := rfl
    rw [hwords, ← prepend_prepend, ← ih h, List.append_assoc]
    rcases hl.before_blank hbreak ds with hlong | ⟨rfl, rfl, hblank⟩
    · exact ofChars_of_longest hlong
    · exact ofChars_blanks (hblank rfl) _

/-- A text that is read to its end gives its words, and after a line feed another text is read. -/
theorem ofChars_newline (h : (ofChars cs).whole = true) (ds : List Char) :
    ofChars (cs ++ '\n' :: ds) = (ofChars ds).prepend (ofChars cs).words :=
  ofChars_newline_of_cuts (Scanned.cuts_ofChars .start cs) h ds

end Reading

end Lox
