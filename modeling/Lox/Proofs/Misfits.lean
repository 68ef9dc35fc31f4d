import Lox.Proofs.Lines
import Lox.Proofs.Seam
import Lox.Proofs.Viability

/-!
# Where a source text goes wrong

The first token, character or end of a source text that does not fit, said without the scanner and
the parser: what stands before it is the beginning of a program, and with it there is none. The
place of a syntax error is that of the misfit, and a text without one has a tree
(`Tree.ofSource_place_iff`).
-/

namespace Lox

/-! ### Places -/

namespace Place

/-- The place behind the text with which a source begins: its line feeds and the characters behind
the last of them count. -/
def behind (front : List Char) : Place :=
  ⟨front.count '\n' + 1, (Text.lastLine front).length + 1⟩

private theorem after_behind (front : List Char) (c : Char) :
    (behind front).after c = behind (front ++ [c]) := by
  by_cases hc : c = '\n'
  · simp [after, behind, hc]
  · simp [after, behind, hc, Text.lastLine_concat]

/-- The place behind more text. -/
theorem advance_behind (front cs : List Char) :
    (behind front).advance cs = behind (front ++ cs) := by
  induction cs generalizing front with
  | nil =>
    rw [List.append_nil]
    rfl
  | cons c cs ih =>
    have hnext := ih (front ++ [c])
    rw [← after_behind, ← List.append_cons] at hnext
    exact hnext

end Place

/-! ### Cutting from the beginning -/

namespace Scanned

/-- From the beginning of the source the longest lexeme is cut off, again and again: behind
`front`, in which the tokens `ts` stand, `rest` is left. -/
inductive Leaves (source : List Char) : List Char → List Token → List Char → Prop
  | start : Leaves source [] [] source
  | skipped {front cs rest : List Char} {ts : List Token} (h : Leaves source front ts (cs ++ rest))
      (hl : Lexeme.skipped.Longest cs rest) : Leaves source (front ++ cs) ts rest
  | token {front cs rest : List Char} {ts : List Token} {k : Kind}
      (h : Leaves source front ts (cs ++ rest)) (hl : (Lexeme.token k).Longest cs rest) :
      Leaves source (front ++ cs) (ts ++ [⟨k, String.ofList cs, .behind front⟩]) rest

namespace Leaves

variable {source front rest : List Char} {ts : List Token}

/-- What is cut off and what is left are the source. -/
theorem eq_append (h : Leaves source front ts rest) : source = front ++ rest := by
  induction h with
  | start => rfl
  | skipped _ _ ih | token _ _ ih => rw [ih, List.append_assoc]

/-- What is cut off is scanned, and then what is left. -/
theorem ofChars_eq (h : Leaves source front ts rest) :
    ofChars .start source =
      ⟨ts ++ (ofChars (.behind front) rest).tokens, (ofChars (.behind front) rest).stop⟩ := by
  induction h with
  | start => rfl
  | skipped _ hl ih =>
    rw [ih, ofChars_append _ hl.written.ne_nil (Lexeme.longest_iff.1 hl), Place.advance_behind]
    rfl
  | token _ hl ih =>
    rw [ih, ofChars_append _ hl.written.ne_nil (Lexeme.longest_iff.1 hl), Place.advance_behind,
      List.append_assoc]
    rfl

/-- Each token that is scanned from what is left begins where the tokens before it are cut off. -/
theorem exists_of_token (h : Leaves source front ts rest) {us vs : List Token} {t : Token}
    (ht : (ofChars (.behind front) rest).tokens = us ++ t :: vs) :
    ∃ front' cs rest', Leaves source front' (ts ++ us) (cs ++ rest') ∧
      (Lexeme.token t.kind).Longest cs rest' ∧ t = ⟨t.kind, String.ofList cs, .behind front'⟩ := by
  have hcuts := cuts_ofChars (.behind front) rest
  generalize ofChars (.behind front) rest = s at ht hcuts
  generalize hp : Place.behind front = p at hcuts
  induction hcuts generalizing front ts us with
  | done | stuck => simp at ht
  | @lexeme p l cs rest s hl _ ih =>
    subst hp
    cases l with
    | skipped => exact ih (.skipped h hl) ht (Place.advance_behind front cs).symm
    | token k =>
      cases us with
      | nil =>
        obtain ⟨rfl, -⟩ := List.cons.inj ht
        rw [List.append_nil]
        exact ⟨front, cs, rest, h, hl, rfl⟩
      | cons u us =>
        obtain ⟨rfl, htail⟩ := List.cons.inj ht
        rw [List.append_cons]
        exact ih (.token h hl) htail (Place.advance_behind front cs).symm

/-- Where scanning stops, all tokens are cut off, and no lexeme begins. -/
theorem exists_of_stop (h : Leaves source front ts rest) {p : Place}
    (hp : (ofChars (.behind front) rest).stop = some p) :
    ∃ front' rest', Leaves source front' (ts ++ (ofChars (.behind front) rest).tokens) rest' ∧
      rest' ≠ [] ∧ (∀ (l : Lexeme) (cs : List Char), l.Writes cs → ¬cs <+: rest') ∧
      p = .behind front' := by
  have hcuts := cuts_ofChars (.behind front) rest
  generalize ofChars (.behind front) rest = s at hp hcuts ⊢
  generalize hq : Place.behind front = q at hcuts
  induction hcuts generalizing front ts with
  | done => cases hp
  | stuck hcs hnone =>
    cases hp
    rw [List.append_nil]
    exact ⟨front, _, h, hcs, hnone, hq.symm⟩
  | @lexeme q l cs rest s hl _ ih =>
    subst hq
    cases l with
    | skipped => exact ih (.skipped h hl) hp (Place.advance_behind front cs).symm
    | token k =>
      have hnext := ih (.token h hl) hp (Place.advance_behind front cs).symm
      rwa [List.append_assoc] at hnext

/-- Where scanning comes to the end, all is cut off. -/
theorem of_stop_eq_none (h : Leaves source front ts rest)
    (hstop : (ofChars (.behind front) rest).stop = none) :
    Leaves source source (ts ++ (ofChars (.behind front) rest).tokens) [] := by
  have hcuts := cuts_ofChars (.behind front) rest
  generalize ofChars (.behind front) rest = s at hstop hcuts ⊢
  generalize hq : Place.behind front = q at hcuts
  induction hcuts generalizing front ts with
  | done =>
    have hsource := h.eq_append
    rw [List.append_nil] at hsource ⊢
    subst hsource
    exact h
  | stuck => cases hstop
  | @lexeme q l cs rest s hl _ ih =>
    subst hq
    cases l with
    | skipped => exact ih (.skipped h hl) hstop (Place.advance_behind front cs).symm
    | token k =>
      have hnext := ih (.token h hl) hstop (Place.advance_behind front cs).symm
      rwa [List.append_assoc] at hnext

end Leaves

end Scanned

/-! ### Misfits -/

open Scanned in
/-- What stands behind `front` does not fit. It is a token with which no program goes on after the
tokens before it, or a character with which no lexeme begins, and the tokens before are the
beginning of a program; or the source ends before its tokens are a program of which they are the
beginning, and then `front` is what stands before the last token. -/
inductive Misfit (source : List Char) : List Char → Prop
  | token {front cs rest : List Char} {ts : List Token} {k : Kind}
      (h : Leaves source front ts (cs ++ rest)) (hl : (Lexeme.token k).Longest cs rest)
      (hts : Viable ts) (ht : ¬Viable (ts ++ [⟨k, String.ofList cs, .behind front⟩])) :
      Misfit source front
  | character {front rest : List Char} {ts : List Token} (h : Leaves source front ts rest)
      (hrest : rest ≠ []) (hnone : ∀ (l : Lexeme) (cs : List Char), l.Writes cs → ¬cs <+: rest)
      (hts : Viable ts) : Misfit source front
  | ending {front cs rest : List Char} {ts : List Token} {k : Kind}
      (h : Leaves source front ts (cs ++ rest)) (hl : (Lexeme.token k).Longest cs rest)
      (hend : Leaves source source (ts ++ [⟨k, String.ofList cs, .behind front⟩]) [])
      (hts : Viable (ts ++ [⟨k, String.ofList cs, .behind front⟩]))
      (ht : ¬IsProgram (ts ++ [⟨k, String.ofList cs, .behind front⟩])) : Misfit source front

private theorem isProgram_nil : IsProgram [] := ⟨_, .rule .manyNil⟩

private theorem Kind.Writes.exists_cons {k : Kind} {cs : List Char} (h : k.Writes cs) :
    ∃ c ds, cs = c :: ds ∧ Text.isBlank c = false := by
  obtain ⟨c, ds, rfl⟩ := List.exists_cons_of_ne_nil (Lexeme.Writes.ne_nil (l := .token k) h)
  refine ⟨c, ds, rfl, ?_⟩
  by_cases hk : k = .string
  · subst hk
    obtain ⟨body, -, htext⟩ := h
    rw [(List.cons.inj htext).1]
    decide
  · exact h.isBlank_eq_false hk c List.mem_cons_self

/-- A character with which no lexeme begins is not skipped. -/
theorem Lexeme.isBlank_of_none {c : Char} {rest : List Char}
    (h : ∀ (l : Lexeme) (cs : List Char), l.Writes cs → ¬cs <+: c :: rest) :
    Text.isBlank c = false := by
  rw [← Bool.not_eq_true]
  intro hc
  refine h .skipped [c] (.inl ⟨List.cons_ne_nil c [], ?_⟩) (List.prefix_append [c] rest)
  exact List.forall_mem_singleton.2 hc

/-- What does not fit begins with a character that is not skipped. -/
theorem Misfit.exists_cons {source front : List Char} (h : Misfit source front) :
    ∃ c rest, source = front ++ c :: rest ∧ Text.isBlank c = false := by
  cases h with
  | token h hl | ending h hl =>
    obtain ⟨c, ds, rfl, hc⟩ := Kind.Writes.exists_cons hl.written
    exact ⟨c, _, h.eq_append, hc⟩
  | character h hrest hnone =>
    obtain ⟨c, rest, rfl⟩ := List.exists_cons_of_ne_nil hrest
    exact ⟨c, rest, h.eq_append, Lexeme.isBlank_of_none hnone⟩

namespace Tree

private theorem exists_misfit {source : String} {e : SyntaxError} (h : ofSource source = .error e) :
    ∃ front, Misfit source.toList front ∧ e = .atPlace source (.behind front) := by
  have hstart : Scanned.Leaves source.toList [] [] source.toList := .start
  have hcharacter {p : Place} (hstop : (Scanned.ofString source).stop = some p)
      (hts : Viable (Scanned.ofString source).tokens) :
      ∃ front, Misfit source.toList front ∧ p = .behind front := by
    obtain ⟨front, rest, hleaves, hrest, hnone, hp⟩ := hstart.exists_of_stop hstop
    exact ⟨front, .character hleaves hrest hnone hts, hp⟩
  rw [ofSource] at h
  split at h
  · rename_i rest hparse
    obtain rfl := Except.error.inj h
    obtain ⟨us, htokens, hus, hend, hnext⟩ := exists_of_ofTokens hparse
    cases rest with
    | cons t vs =>
      obtain ⟨front, cs, rest, hleaves, hl, ht⟩ := hstart.exists_of_token htokens
      have hmisfit := hnext t rfl
      rw [ht] at hmisfit
      refine ⟨front, .token hleaves hl hus hmisfit, ?_⟩
      rw [SyntaxError.placeOf, ht]
    | nil =>
      rw [List.append_nil] at htokens
      subst htokens
      cases hstop : (Scanned.ofString source).stop with
      | some p =>
        obtain ⟨front, hmisfit, rfl⟩ := hcharacter hstop hus
        refine ⟨front, hmisfit, ?_⟩
        rw [SyntaxError.placeOf, hstop]
      | none =>
        have hall := hstart.of_stop_eq_none hstop
        rcases List.eq_nil_or_concat (Scanned.ofString source).tokens with hnil | ⟨us, t, htokens⟩
        · rw [hnil] at hend
          exact (hend rfl isProgram_nil).elim
        · rw [List.concat_eq_append] at htokens
          obtain ⟨front, cs, rest, hleaves, hl, ht⟩ := hstart.exists_of_token htokens
          have hlast : (Scanned.ofString source).tokens =
              us ++ [⟨t.kind, String.ofList cs, .behind front⟩] := by
            rw [htokens, ← ht]
          have hall' : Scanned.Leaves source.toList source.toList
              (us ++ [⟨t.kind, String.ofList cs, .behind front⟩]) [] := hlast ▸ hall
          refine ⟨front, .ending hleaves hl hall' (hlast ▸ hus) (hlast ▸ hend rfl), ?_⟩
          rw [SyntaxError.placeOf, hstop, hlast, List.getLast?_concat]
          rfl
  · rename_i t p hparse hstop
    obtain rfl := Except.error.inj h
    have hprogram : IsProgram (Scanned.ofString source).tokens := ⟨t, ofTokens_eq_ok_iff.1 hparse⟩
    obtain ⟨front, hmisfit, rfl⟩ := hcharacter hstop hprogram.viable
    exact ⟨front, hmisfit, rfl⟩
  · cases h

private theorem ofSource_of_misfit {source : String} {front : List Char}
    (h : Misfit source.toList front) :
    ofSource source = .error (.atPlace source (.behind front)) := by
  -- tokens that are not read on into what is left
  have hreject {ts : List Token} (rest : List Token) (hts : Viable ts)
      (htokens : (Scanned.ofString source).tokens = ts ++ rest)
      (hend : rest = [] → ¬IsProgram ts) (hnext : ∀ x ∈ rest.head?, ¬Viable (ts ++ [x]))
      (hplace : SyntaxError.placeOf (Scanned.ofString source) rest = .behind front) :
      ofSource source = .error (.atPlace source (.behind front)) := by
    have hparse := (ofTokens_append_eq_error_iff hts).2 ⟨hend, hnext⟩
    rw [← htokens] at hparse
    rw [ofSource, hparse, ← hplace]
  cases h with
  | @token cs rest ts k h hl hts ht =>
    have hscan := h.ofChars_eq
    rw [Scanned.ofChars_append _ hl.written.ne_nil (Lexeme.longest_iff.1 hl)] at hscan
    refine hreject _ hts (congrArg Scanned.tokens hscan) (fun hnil => by cases hnil) ?_ rfl
    rintro x hx
    obtain rfl := Option.some.inj hx
    exact ht
  | @character rest ts h hrest hnone hts =>
    have hscan := h.ofChars_eq
    rw [Scanned.ofChars_stuck _ hrest (Lexeme.none_iff.1 hnone), List.append_nil] at hscan
    by_cases hprogram : IsProgram ts
    · obtain ⟨t, ht⟩ := hprogram
      rw [ofSource, Scanned.ofString, hscan, ofTokens_eq_ok_iff.2 ht]
    · refine hreject [] hts ?_ (fun _ => hprogram) ?_ ?_
      · rw [Scanned.ofString, hscan, List.append_nil]
      · intro x hx
        cases hx
      · rw [SyntaxError.placeOf, Scanned.ofString, hscan]
  | @ending cs rest ts k h hl hend hts ht =>
    have hscan := hend.ofChars_eq
    rw [Scanned.ofChars_nil, List.append_nil] at hscan
    refine hreject [] hts ?_ (fun _ => ht) ?_ ?_
    · rw [Scanned.ofString, hscan, List.append_nil]
    · intro x hx
      cases hx
    · rw [SyntaxError.placeOf, Scanned.ofString, hscan, List.getLast?_concat]
      rfl

/-- A source text is rejected just if it has a misfit, and the error is at the place of the
misfit. -/
theorem ofSource_eq_error_iff {source : String} {e : SyntaxError} :
    ofSource source = .error e ↔
      ∃ front, Misfit source.toList front ∧ e = .atPlace source (.behind front) := by
  refine ⟨exists_misfit, ?_⟩
  rintro ⟨front, hmisfit, rfl⟩
  exact ofSource_of_misfit hmisfit

end Tree

/-! ### The place of a syntax error -/

/-- Where an error is shown. -/
def SyntaxError.place (e : SyntaxError) : Place := ⟨e.line, e.column⟩

/-- An error at a place behind which a character stands is shown there, on its line of display. -/
theorem SyntaxError.exists_atPlace (source : String) {front rest : List Char} {c : Char}
    (h : source.toList = front ++ c :: rest) :
    ∃ line, (Text.lines source.toList)[front.count '\n']? = some line ∧
      atPlace source (.behind front) =
        ⟨String.ofList line, (Place.behind front).line, (Place.behind front).column⟩ := by
  have hbound := Text.count_lt_length_lines front c rest
  rw [← h] at hbound
  have hlines : linesOf source = Text.lines source.toList := by
    rw [linesOf]
    split
    · rename_i hnil
      rw [hnil] at hbound
      cases hbound
    · rfl
  have hget := List.getElem?_eq_getElem hbound
  refine ⟨_, hget, ?_⟩
  have hindex : ((front.count '\n' + 1 : Nat) : Int).toNat - 1 = front.count '\n' := by omega
  have hcolumn : (max (((Text.lastLine front).length + 1 : Nat) : Int) 1).toNat =
      (Text.lastLine front).length + 1 := by omega
  rw [atPlace, locate, hlines, Place.behind]
  simp only [hindex, hget, hcolumn]
  rw [if_neg (by omega)]
  rfl

/-- The place of a syntax error is that of the first token or character that does not fit, or of
the last token if nothing but the end does not fit. A source text is rejected just if it has such
a place. -/
theorem Tree.ofSource_place_iff (source : String) (p : Place) :
    (∃ e, ofSource source = .error e ∧ e.place = p) ↔
      ∃ front, Misfit source.toList front ∧ Place.behind front = p := by
  have hplace {front : List Char} (hmisfit : Misfit source.toList front) :
      (SyntaxError.atPlace source (.behind front)).place = .behind front := by
    obtain ⟨c, rest, hsource, -⟩ := hmisfit.exists_cons
    obtain ⟨line, -, hat⟩ := SyntaxError.exists_atPlace source hsource
    rw [hat]
    rfl
  constructor
  · rintro ⟨e, he, rfl⟩
    obtain ⟨front, hmisfit, rfl⟩ := ofSource_eq_error_iff.1 he
    exact ⟨front, hmisfit, (hplace hmisfit).symm⟩
  · rintro ⟨front, hmisfit, rfl⟩
    exact ⟨_, ofSource_eq_error_iff.2 ⟨front, hmisfit, rfl⟩, hplace hmisfit⟩

end Lox
