import Lox.Proofs.Joining
import Lox.Proofs.Misfits

/-!
# Spacing

White space behind a token, with comments after it that end at line feeds, does not matter. What
stands before it is cut as before, since a lexeme that could go on over a blank would be a string
or a comment, and would have gone on over the end of the token as well; and what stands behind it is
cut as before, since a lexeme does not depend on what is before it. So the words stay, and with them
all that is made of them.
-/

namespace Lox

/-! ### Gaps -/

/-- White space and comments, each of these with the line feed that ends it. -/
inductive Filler : List Char → Prop
  | nil : Filler []
  | blank {c : Char} {cs : List Char} (hc : Text.isBlank c = true) (h : Filler cs) :
    Filler (c :: cs)
  | comment {line cs : List Char} (hline : '\n' ∉ line) (h : Filler cs) :
    Filler ('/' :: '/' :: (line ++ '\n' :: cs))

/-- What can be put behind a token: white space, and then more of it or comments. -/
def Gap (cs : List Char) : Prop := ∃ c ds, cs = c :: ds ∧ Text.isBlank c = true ∧ Filler ds

namespace Reading

private theorem ofChars_comment {line : List Char} (hline : '\n' ∉ line) (cs : List Char) :
    ofChars ('/' :: '/' :: (line ++ '\n' :: cs)) = ofChars ('\n' :: cs) := by
  have hall : ∀ c ∈ line, decide (c ≠ '\n') = true := fun c hc =>
    decide_eq_true fun hbreak => hline (hbreak ▸ hc)
  have htake : (line ++ '\n' :: cs).takeWhile (fun c => decide (c ≠ '\n')) = line := by
    rw [List.takeWhile_append_of_pos hall, List.takeWhile_cons_of_neg (by decide), List.append_nil]
  have hlex := Scan.lexeme?_comment (line ++ '\n' :: cs)
  rw [htake, Nat.add_comm] at hlex
  have hlong : Lexeme.skipped.Longest ('/' :: '/' :: line) ('\n' :: cs) :=
    Lexeme.longest_iff.2 hlex
  exact ofChars_of_longest hlong

/-- What fills a gap does not matter in front of a text. -/
theorem ofChars_filler {cs : List Char} (h : Filler cs) (ds : List Char) :
    ofChars (cs ++ ds) = ofChars ds := by
  induction h with
  | nil => rfl
  | blank hc _ ih => rw [List.cons_append, ofChars_blank hc, ih]
  | @comment line cs hline _ ih =>
    have hbreak : Text.isBlank '\n' = true := by decide
    rw [List.cons_append, List.cons_append, List.append_assoc, List.cons_append,
      ofChars_comment hline, ofChars_blank hbreak, ih]

end Reading

/-! ### Before a blank -/

/-- What is longest in a text is longest in less of it. -/
theorem Lexeme.Longest.of_append {l : Lexeme} {cs rest more : List Char}
    (h : l.Longest cs (rest ++ more)) : l.Longest cs rest where
  written := h.written
  longest l' cs' hwritten hbegins := by
    refine h.longest l' cs' hwritten (hbegins.trans ?_)
    rw [← List.append_assoc]
    exact List.prefix_append _ _

private theorem Lexeme.Longest.with_blank {l : Lexeme} {cs rest more : List Char}
    (h : l.Longest cs (rest ++ more)) (hl : rest ≠ [] ∨ l ≠ .skipped) {b : Char}
    (hb : Text.isBlank b = true) (ds : List Char) : l.Longest cs (rest ++ b :: ds) := by
  rcases h.of_append.before_blank hb ds with hlong | ⟨hrest, hskipped, -⟩
  · exact hlong
  · exact (hl.elim (· hrest) (· hskipped)).elim

namespace Scanned.Leaves

variable {source front rest : List Char} {ts : List Token}

private theorem reading_eq (h : Leaves source front ts rest) :
    Reading.ofChars (front ++ rest) = (Reading.ofChars rest).prepend (ts.map Token.word) := by
  rw [← h.eq_append, Reading.ofChars, h.ofChars_eq, ← Reading.reading_ofChars (.behind front),
    Scanned.reading, List.map_append]
  rfl

private theorem reading_before_blank {us vs : List Char} (h : Leaves source front ts (us ++ vs))
    (hus : us ≠ []) {b : Char} (hb : Text.isBlank b = true) (ds : List Char) :
    Reading.ofChars (front ++ (us ++ b :: ds)) =
      (Reading.ofChars (us ++ b :: ds)).prepend (ts.map Token.word) := by
  generalize hrest : us ++ vs = rest at h
  induction h generalizing us with
  | start => rfl
  | @skipped front cs rest ts _ hl ih =>
    subst hrest
    have hread := ih (List.append_ne_nil_of_left_ne_nil hl.written.ne_nil us)
      (List.append_assoc cs us vs)
    rw [List.append_assoc, Reading.ofChars_of_longest (hl.with_blank (.inl hus) hb ds)] at hread
    rw [List.append_assoc, hread]
    rfl
  | @token front cs rest ts k _ hl ih =>
    subst hrest
    have hread := ih (List.append_ne_nil_of_left_ne_nil hl.written.ne_nil us)
      (List.append_assoc cs us vs)
    rw [List.append_assoc, Reading.ofChars_of_longest (hl.with_blank (.inl hus) hb ds),
      Reading.prepend_prepend] at hread
    rw [List.append_assoc, hread, List.map_append]
    rfl

private theorem reading_gap {cs gap : List Char} {k : Kind}
    (h : Leaves source front ts (cs ++ rest)) (hl : (Lexeme.token k).Longest cs rest)
    (hgap : Gap gap) :
    Reading.ofChars (front ++ (cs ++ (gap ++ rest))) =
      Reading.ofChars (front ++ (cs ++ rest)) := by
  obtain ⟨b, filler, rfl, hb, hfiller⟩ := hgap
  have hlong : (Lexeme.token k).Longest cs (b :: (filler ++ rest)) :=
    @Lexeme.Longest.with_blank _ _ [] rest hl (.inr Lexeme.noConfusion) b hb (filler ++ rest)
  rw [List.cons_append, h.reading_before_blank hl.written.ne_nil hb, h.reading_eq,
    Reading.ofChars_of_longest hlong, Reading.ofChars_of_longest hl, Reading.ofChars_blank hb,
    Reading.ofChars_filler hfiller]

end Scanned.Leaves

/-! ### Behind a token -/

namespace Place

private theorem advance_later (p : Place) (cs : List Char) :
    p.line < (p.advance cs).line ∨
      p.line = (p.advance cs).line ∧ p.column + cs.length ≤ (p.advance cs).column := by
  induction cs generalizing p with
  | nil => exact .inr ⟨rfl, Nat.le_refl _⟩
  | cons c cs ih =>
    have hnext := ih (p.after c)
    have hadvance : p.advance (c :: cs) = (p.after c).advance cs := rfl
    rw [hadvance, List.length_cons]
    by_cases hc : c = '\n'
    · rw [after, if_pos hc] at hnext ⊢
      dsimp only at hnext
      omega
    · rw [after, if_neg hc] at hnext ⊢
      dsimp only at hnext
      omega

/-- Two beginnings of a text with the same place behind them are the same. -/
theorem behind_inj {front front' rest rest' : List Char}
    (htext : front ++ rest = front' ++ rest') (h : behind front = behind front') :
    front = front' := by
  have hnil {front more : List Char} (h : behind front = behind (front ++ more)) : more = [] := by
    have hlater := advance_later (behind front) more
    rw [advance_behind, ← h] at hlater
    exact List.length_eq_zero_iff.1 (by omega)
  rcases List.append_eq_append_iff.1 htext with ⟨more, rfl, -⟩ | ⟨more, rfl, -⟩
  · rw [hnil h, List.append_nil]
  · rw [hnil h.symm, List.append_nil]

end Place

/-- Texts that are read alike have the same trees. -/
theorem Tree.ofSource_eq_ok_of_reading {s s' : String}
    (h : Reading.ofChars s.toList = Reading.ofChars s'.toList) {t : Tree}
    (ht : Tree.ofSource s = .ok t) : Tree.ofSource s' = .ok t := by
  obtain ⟨ts, hread, hts⟩ := Tree.ofSource_eq_ok_iff_reading.1 ht
  exact Tree.ofSource_eq_ok_iff_reading.2 ⟨ts, h ▸ hread, hts⟩

namespace Source

/-- Behind a token, white space with comments after it can be put in: the kinds and texts of all
tokens stay, and so does whether there are characters that belong to none. The text has a tree just
if it had one, and this is the same; so it is the same program, with the same dump, and it runs as
it did. -/
theorem unchanged_by_gap {source spaced front rest gap : String} {t : Token}
    (ht : t ∈ (Scanned.ofString source).tokens) (hsource : source = front ++ t.text ++ rest)
    (hplace : t.place = Place.behind front.toList) (hgap : Gap gap.toList)
    (hspaced : spaced = front ++ t.text ++ gap ++ rest) :
    ((Scanned.ofString spaced).tokens.map Token.word =
        (Scanned.ofString source).tokens.map Token.word ∧
      ((Scanned.ofString spaced).stop = none ↔ (Scanned.ofString source).stop = none)) ∧
    (∀ tree, Tree.ofSource spaced = .ok tree ↔ Tree.ofSource source = .ok tree) ∧
    (∀ p, program spaced = .ok p ↔ program source = .ok p) ∧
    (program spaced).toOption.map Program.dump = (program source).toOption.map Program.dump ∧
    ∀ tree, Tree.ofSource source = .ok tree → ∀ limits flags,
      exec limits flags spaced = exec limits flags source := by
  obtain ⟨us, vs, htokens⟩ := List.append_of_mem ht
  have hstart : Scanned.Leaves source.toList [] [] source.toList := .start
  obtain ⟨front', cs, rest', hleaves, hlongest, htoken⟩ := hstart.exists_of_token htokens
  -- The token stands where it is said to stand.
  have htext : t.text.toList = cs := by rw [htoken, String.toList_ofList]
  have happend := hleaves.eq_append
  rw [hsource, String.toList_append, String.toList_append, List.append_assoc, htext] at happend
  have hfront : front' = front.toList :=
    (Place.behind_inj happend (hplace.symm.trans (congrArg Token.place htoken))).symm
  subst hfront
  have hrest : rest.toList = rest' := List.append_cancel_left (List.append_cancel_left happend)
  subst hrest
  have hread : Reading.ofChars spaced.toList = Reading.ofChars source.toList := by
    have hgapped := hleaves.reading_gap hlongest hgap
    rw [← htext] at hgapped
    rw [hspaced, hsource]
    simpa only [String.toList_append, List.append_assoc] using hgapped
  have htree (tree : Tree) : Tree.ofSource spaced = .ok tree ↔ Tree.ofSource source = .ok tree :=
    ⟨Tree.ofSource_eq_ok_of_reading hread, Tree.ofSource_eq_ok_of_reading hread.symm⟩
  have hprogram (p : Program) : program spaced = .ok p ↔ program source = .ok p := by
    simp only [program_eq_ok_iff_tree, htree]
  have hoption : (program spaced).toOption = (program source).toOption := by
    cases hsourceProgram : program source with
    | ok p => rw [(hprogram p).2 hsourceProgram]
    | error failure =>
      cases hspacedProgram : program spaced with
      | ok p =>
        rw [(hprogram p).1 hspacedProgram] at hsourceProgram
        cases hsourceProgram
      | error => rfl
  refine ⟨⟨congrArg Reading.words hread, ?_⟩, htree, hprogram, congrArg _ hoption,
    fun tree hsourceTree limits flags => ?_⟩
  · rw [← Option.isNone_iff_eq_none, ← Option.isNone_iff_eq_none]
    exact iff_of_eq (congrArg (· = true) (congrArg Reading.whole hread))
  · rw [exec, exec, (htree tree).2 hsourceTree, hsourceTree]

/-- The sign of a division, with a comment behind it that would begin with it if there were no
blank. -/
theorem unchanged_by_gap_division :
    (Scanned.ofString "1/ // one half\n2;").tokens.map Token.word =
      (Scanned.ofString "1/2;").tokens.map Token.word ∧
    ∀ p, program "1/ // one half\n2;" = .ok p ↔ program "1/2;" = .ok p := by
  have hscan : Scanned.ofString "1/2;" = Scanned.ofPieces .start [(.token .int, "1".toList),
      (.token .divide, "/".toList), (.token .int, "2".toList), (.token .semicolon, ";".toList)] :=
    Scanned.ofString_pieces _ (by decide) (by decide)
  have hsign : ⟨.divide, "/", ⟨1, 2⟩⟩ ∈ (Scanned.ofString "1/2;").tokens := by
    rw [hscan]
    decide
  have hcomment : Filler ('/' :: '/' :: (" one half".toList ++ ['\n'])) :=
    .comment (by decide) .nil
  have hgap : Gap " // one half\n".toList := ⟨' ', _, rfl, by decide, hcomment⟩
  have hspaced : "1/ // one half\n2;" = "1" ++ "/" ++ " // one half\n" ++ "2;" := by decide
  have h := unchanged_by_gap hsign (by decide : "1/2;" = "1" ++ "/" ++ "2;") (by decide) hgap
    hspaced
  exact ⟨h.1.1, h.2.2.1⟩

end Source

end Lox
