import Lox.Proofs.Continuation
import Lox.Proofs.Dialogue
import Lox.Proofs.Misfits

/-!
# Comments that are taken away

Where every line closes its quotation marks, taking comments and white space from the ends of the
lines changes nothing that is scanned: what is left of a line ends with the end of a lexeme,
whatever follows it, and what is taken is skipped. Lines that are empty then are left out at the
beginning of a unit, so its places are some lines higher (`Entry.scan_unitOf`).
-/

namespace Lox

/-! ### Places further down -/

namespace Place

/-- The place `k` lines further down. -/
def lowered (k : Nat) (p : Place) : Place := ⟨p.line + k, p.column⟩

private theorem after_lowered (k : Nat) (p : Place) (c : Char) :
    (p.lowered k).after c = (p.after c).lowered k := by
  rw [after, after]
  split
  · rw [lowered, lowered, Nat.add_right_comm]
  · rfl

private theorem advance_lowered (k : Nat) (p : Place) (cs : List Char) :
    (p.lowered k).advance cs = (p.advance cs).lowered k := by
  induction cs generalizing p with
  | nil => rfl
  | cons c cs ih =>
    have hnext := ih (p.after c)
    rw [← after_lowered] at hnext
    exact hnext

/-- The place after two texts. -/
theorem advance_append (p : Place) (cs ds : List Char) :
    p.advance (cs ++ ds) = (p.advance cs).advance ds := List.foldl_append

private theorem line_advance {cs : List Char} (hcs : '\n' ∉ cs) (p : Place) :
    (p.advance cs).line = p.line := by
  induction cs generalizing p with
  | nil => rfl
  | cons c cs ih =>
    rw [List.mem_cons, not_or] at hcs
    have hafter : (p.after c).line = p.line := by
      rw [after, if_neg (Ne.symm hcs.1)]
    exact (ih hcs.2 (p.after c)).trans hafter

end Place

/-- The token `k` lines further down. -/
def Token.lowered (k : Nat) (t : Token) : Token := { t with place := t.place.lowered k }

namespace Scanned

/-- What was scanned, `k` lines further down. -/
def lowered (k : Nat) (s : Scanned) : Scanned :=
  ⟨s.tokens.map (Token.lowered k), s.stop.map (Place.lowered k)⟩

/-- A text that stands further down is scanned further down. -/
theorem ofChars_lowered (k : Nat) (p : Place) (cs : List Char) :
    ofChars (p.lowered k) cs = (ofChars p cs).lowered k := by
  have hcuts := cuts_ofChars p cs
  generalize ofChars p cs = s at hcuts ⊢
  induction hcuts with
  | done => exact ofChars_nil _
  | stuck hcs hnone => exact ofChars_stuck _ hcs (Lexeme.none_iff.1 hnone)
  | @lexeme p l cs rest s hl _ ih =>
    rw [ofChars_append _ hl.written.ne_nil (Lexeme.longest_iff.1 hl), Place.advance_lowered, ih]
    cases l <;> rfl

/-! ### One text and then another -/

/-- What is scanned from two texts, the second one only if the first is read to its end. -/
def andThen (s s' : Scanned) : Scanned :=
  match s.stop with
  | none => ⟨s.tokens ++ s'.tokens, s'.stop⟩
  | some _ => s

private theorem before_andThen (p : Place) (cs : List Char) (l : Lexeme) (s s' : Scanned) :
    (before p cs l s).andThen s' = before p cs l (s.andThen s') := by
  obtain ⟨ts, stop⟩ := s
  cases l <;> cases stop <;> rfl

private theorem ofChars_blank {c : Char} (hc : Text.isBlank c = true) (p : Place)
    (cs : List Char) : ofChars p (c :: cs) = ofChars (p.after c) cs := by
  have hskip {c : Char} (hc : Text.isBlank c = true) (p : Place) (cs : List Char) :
      ofChars p (c :: cs) =
        ofChars (p.advance (c :: cs.takeWhile Text.isBlank)) (cs.dropWhile Text.isBlank) := by
    have hlex := Scan.lexeme?_blank cs hc
    have hsplit : c :: cs = (c :: cs.takeWhile Text.isBlank) ++ cs.dropWhile Text.isBlank := by
      rw [List.cons_append, List.takeWhile_append_dropWhile]
    rw [hsplit, Nat.add_comm] at hlex
    rw [hsplit, ofChars_append p (List.cons_ne_nil _ _) hlex]
    rfl
  rw [hskip hc]
  cases cs with
  | nil => rfl
  | cons d ds =>
    by_cases hd : Text.isBlank d = true
    · rw [List.dropWhile_cons_of_pos hd, List.takeWhile_cons_of_pos hd, hskip hd]
      rfl
    · rw [List.dropWhile_cons_of_neg hd, List.takeWhile_cons_of_neg hd]
      rfl

private theorem ofChars_blanks {bs : List Char} (hbs : ∀ c ∈ bs, Text.isBlank c = true) (p : Place)
    (cs : List Char) : ofChars p (bs ++ cs) = ofChars (p.advance bs) cs := by
  induction bs generalizing p with
  | nil => rfl
  | cons b bs ih =>
    obtain ⟨hb, hbs⟩ := List.forall_mem_cons.1 hbs
    rw [List.cons_append, ofChars_blank hb, ih hbs]
    rfl

private theorem ofChars_comment {line : List Char} (hline : '\n' ∉ line) (p : Place)
    {cs : List Char} (hcs : ∀ c ∈ cs.head?, c = '\n') :
    ofChars p ('/' :: '/' :: line ++ cs) = ofChars (p.advance ('/' :: '/' :: line)) cs := by
  have hall : ∀ c ∈ line, decide (c ≠ '\n') = true := by
    intro c hc
    exact decide_eq_true fun hbreak => hline (hbreak ▸ hc)
  have hnone : cs.takeWhile (fun c => decide (c ≠ '\n')) = [] := by
    cases cs with
    | nil => rfl
    | cons c cs =>
      rw [hcs c rfl]
      rfl
  have hlex : Scan.lexeme? ('/' :: '/' :: line ++ cs) =
      some (.skipped, ('/' :: '/' :: line).length) := by
    rw [List.cons_append, List.cons_append, Scan.lexeme?_comment,
      List.takeWhile_append_of_pos hall, hnone, List.append_nil, Nat.add_comm]
    rfl
  exact ofChars_append p (List.cons_ne_nil _ _) hlex

end Scanned

/-! ### Texts that end with a lexeme -/

private theorem Kind.Writes.eq_of_slash {k : Kind} {cs : List Char} (h : k.Writes cs)
    (hk : k ≠ .string) (hmem : '/' ∈ cs) : cs = ['/'] := by
  obtain hchars | ⟨s, hs, rfl⟩ := h.chars hk
  · rcases hchars '/' hmem with hslash | hslash | hslash <;> cases hslash
  · revert hmem
    cases k <;> cases hs <;> decide

namespace Entry

/-- What is left of a line: it closes its quotation marks, no comment begins in it, and it does not
end with white space. -/
structure Tidy (cs : List Char) : Prop where
  closed : quotedAfter false cs = false
  uncommented : ∀ front rest, cs = front ++ '/' :: '/' :: rest → quotedAfter false front = true
  trimmed : ∀ c ∈ cs.getLast?, Text.isBlank c = false

/-- What stands behind a text begins with a blank, or with a slash after something else. -/
def Follows (cs more : List Char) : Prop :=
  ∀ c ∈ more.head?, Text.isBlank c = true ∨ c = '/' ∧ cs.getLast? ≠ some '/'

namespace Tidy

variable {cs rest more : List Char} {l : Lexeme} {c : Char}

private theorem not_writes (h : Tidy cs) (hne : cs ≠ []) {tail : List Char}
    (hmore : Follows cs (c :: more)) : ¬l.Writes (cs ++ c :: tail) := by
  have hopen {body : List Char} (hbody : '"' ∉ body) (hcs : cs = '"' :: body) : False := by
    have hclosed := h.closed
    rw [hcs] at hclosed
    have hquoted : quotedAfter true body = false := hclosed
    rw [(openCount_quoted hbody).2] at hquoted
    cases hquoted
  have hcomment {line : List Char} (hcs : cs = '/' :: '/' :: line) : False := by
    have hquoted := h.uncommented [] line hcs
    cases hquoted
  intro hwritten
  rcases hmore c rfl with hblank | ⟨rfl, hlast⟩
  · rcases hwritten.before_blank hne hblank with
      ⟨⟨-, hall⟩ | ⟨line, -, hcs⟩, -⟩ | ⟨body, hbody, hcs⟩
    · obtain ⟨d, hd⟩ := Option.ne_none_iff_exists'.1 (mt List.getLast?_eq_none_iff.1 hne)
      have htrimmed := h.trimmed d hd
      rw [hall d (List.mem_of_getLast? hd)] at htrimmed
      cases htrimmed
    · exact hcomment hcs
    · exact hopen hbody hcs
  · cases l with
    | skipped =>
      rcases hwritten with ⟨-, hall⟩ | ⟨line, -, htext⟩
      · exact absurd (hall '/' (by simp)) (by decide)
      · obtain ⟨d, ds, rfl⟩ := List.exists_cons_of_ne_nil hne
        obtain ⟨rfl, htail⟩ := List.cons.inj htext
        cases ds with
        | nil => exact hlast rfl
        | cons e es =>
          obtain ⟨rfl, -⟩ := List.cons.inj htail
          exact hcomment rfl
    | token k =>
      by_cases hk : k = .string
      · subst hk
        obtain ⟨body, hbody, hcs⟩ := Lexeme.Writes.open_before hwritten hne
        exact hopen hbody hcs
      · have hslash := Kind.Writes.eq_of_slash hwritten hk (by simp)
        have hlength := congrArg List.length hslash
        have hpos := List.length_pos_iff.2 hne
        simp only [List.length_append, List.length_cons, List.length_nil] at hlength
        omega

-- A lexeme at the start of a tidy text is one of the text alone, whatever stands behind it.
private theorem prefix_of_writes (h : Tidy cs) (hne : cs ≠ []) (hmore : Follows cs more)
    {ds : List Char} (hds : l.Writes ds) (hprefixed : ds <+: cs ++ more) : ds <+: cs := by
  cases more with
  | nil => rwa [List.append_nil] at hprefixed
  | cons c more =>
    rcases Lexeme.prefix_append_cons hprefixed with hshort | ⟨tail, rfl⟩
    · exact hshort
    · exact (h.not_writes hne hmore hds).elim

private theorem of_append (h : Tidy (cs ++ rest)) (hcs : quotedAfter false cs = false) :
    Tidy rest := by
  refine ⟨?_, fun front more hrest => ?_, fun c hc => h.trimmed c ?_⟩
  · have hclosed := h.closed
    rwa [quotedAfter_append, hcs] at hclosed
  · have hquoted := h.uncommented (cs ++ front) more (by rw [hrest, List.append_assoc])
    rwa [quotedAfter_append, hcs] at hquoted
  · rw [List.getLast?_append, hc]
    rfl

end Tidy

private theorem Follows.of_append {cs rest more : List Char} (h : Follows (cs ++ rest) more) :
    Follows rest more := by
  intro c hc
  refine (h c hc).imp_right fun hslash => ⟨hslash.1, fun hrest => hslash.2 ?_⟩
  rw [List.getLast?_append, hrest]
  rfl

/-- A tidy text is scanned, and then what stands behind it. -/
theorem Tidy.ofChars_append {cs more : List Char} (h : Tidy cs) (hmore : Follows cs more)
    (p : Place) :
    Scanned.ofChars p (cs ++ more) =
      (Scanned.ofChars p cs).andThen (Scanned.ofChars (p.advance cs) more) := by
  have hcuts := Scanned.cuts_ofChars p cs
  generalize Scanned.ofChars p cs = s at hcuts ⊢
  induction hcuts with
  | done => rfl
  | @stuck p cs hcs hnone =>
    refine Scanned.ofChars_stuck p (by simp [hcs]) (Lexeme.none_iff.1 fun l ds hds hprefixed => ?_)
    exact hnone l ds hds (h.prefix_of_writes hcs hmore hds hprefixed)
  | @lexeme p l cs rest s hl _ ih =>
    have hne : cs ++ rest ≠ [] := List.append_ne_nil_of_left_ne_nil hl.written.ne_nil rest
    have hlong : l.Longest cs (rest ++ more) := by
      refine ⟨hl.written, fun l' ds hds hprefixed => hl.longest l' ds hds ?_⟩
      rw [← List.append_assoc] at hprefixed
      exact h.prefix_of_writes hne hmore hds hprefixed
    have hclosed : quotedAfter false cs = false := by
      cases l with
      | token k => exact (Kind.Writes.openCount_eq hl.written).2
      | skipped =>
        rcases hl.written with ⟨-, hall⟩ | ⟨line, -, rfl⟩
        · exact (openCount_unmarked fun c hc => not_mem_marks (by decide) (hall c hc)).2
        · have hquoted := h.uncommented [] (line ++ rest) rfl
          cases hquoted
    rw [List.append_assoc, Scanned.ofChars_append p hl.written.ne_nil (Lexeme.longest_iff.1 hlong),
      ih (h.of_append hclosed) hmore.of_append, Scanned.before_andThen, Place.advance_append]

/-! ### What is taken from a line -/

-- A line has its comment behind what is left without it, and not directly behind a slash, unless
-- that is quoted.
private theorem exists_comment (q : Bool) (line : List Char) :
    ∃ comment, line = stripComment q line ++ comment ∧
      (comment = [] ∨ (∃ more, comment = '/' :: '/' :: more) ∧
        ∀ front, stripComment q line = front ++ ['/'] → quotedAfter q front = true) := by
  fun_induction stripComment q line with
  | case1 => exact ⟨[], rfl, .inl rfl⟩
  | case2 q cs ih =>
    obtain ⟨comment, hcs, hcomment⟩ := ih
    refine ⟨comment, congrArg _ hcs, hcomment.imp_right fun h => ⟨h.1, ?_⟩⟩
    intro front hfront
    cases front with
    | nil =>
      obtain ⟨hquote, -⟩ := List.cons.inj hfront
      exact absurd hquote (by decide)
    | cons c front =>
      obtain ⟨rfl, htail⟩ := List.cons.inj hfront
      exact h.2 front htail
  | case3 cs ih =>
    obtain ⟨comment, hcs, hcomment⟩ := ih
    refine ⟨comment, congrArg _ hcs, hcomment.imp_right fun h => ⟨h.1, ?_⟩⟩
    intro front hfront
    cases front with
    | nil => rfl
    | cons c front =>
      obtain ⟨rfl, htail⟩ := List.cons.inj hfront
      exact h.2 front htail
  | case4 _ cs => exact ⟨_, rfl, .inr ⟨⟨cs, rfl⟩, fun front hfront => by simp at hfront⟩⟩
  | case5 q c cs hquote hslash ih =>
    obtain ⟨comment, hcs, hcomment⟩ := ih
    have hc : c ≠ '"' := hquote
    refine ⟨comment, congrArg _ hcs, hcomment.imp_right fun h => ⟨h.1, ?_⟩⟩
    intro front hfront
    cases front with
    | nil =>
      -- the slash would have begun a comment with the next one
      obtain ⟨rfl, hnil⟩ := List.cons.inj hfront
      obtain ⟨more, rfl⟩ := h.1
      rw [hnil] at hcs
      exact (hslash _ rfl hcs).elim
    | cons d front =>
      obtain ⟨rfl, htail⟩ := List.cons.inj hfront
      have hquoted := h.2 front htail
      rwa [quotedAfter, if_neg hc]

private theorem exists_gap {line : List Char} (hbreak : '\n' ∉ line)
    (hquotes : quotedAfter false (stripComment false line) = false) :
    Tidy (clean line) ∧ ∃ gap, line = clean line ++ gap ∧
      ∀ more : List Char, (∀ c ∈ more.head?, c = '\n') → Follows (clean line) (gap ++ more) ∧
        ∀ p, Scanned.ofChars p (gap ++ more) = Scanned.ofChars (p.advance gap) more := by
  obtain ⟨comment, hline, hcomment⟩ := exists_comment false line
  obtain ⟨blanks, hblanks, hall⟩ : ∃ blanks, clean line ++ blanks = stripComment false line ∧
      ∀ c ∈ blanks, Text.isBlank c = true :=
    ⟨_, List.rdropWhile_append_rtakeWhile, fun c hc => List.mem_rtakeWhile_imp hc⟩
  have hbreak' : '\n' ∉ comment := fun hmem =>
    hbreak (hline ▸ List.mem_append_right _ hmem)
  have hclosed : quotedAfter false (clean line) = false := by
    rw [← hblanks, quotedAfter_append] at hquotes
    cases hquoted : quotedAfter false (clean line) with
    | false => rfl
    | true =>
      have hplain : '"' ∉ blanks := fun hmem => absurd (hall '"' hmem) (by decide)
      rw [hquoted, (openCount_quoted hplain).2] at hquotes
      cases hquotes
  refine ⟨⟨hclosed, fun front rest hclean => ?_, fun c => Text.isBlank_getLast_trimEnd⟩,
    blanks ++ comment, ?_, fun more hmore => ⟨?_, fun p => ?_⟩⟩
  · rw [hclean, List.append_assoc] at hblanks
    exact quotedAfter_stripComment hblanks.symm
  · rw [← List.append_assoc, hblanks, ← hline]
  · intro c hc
    cases blanks with
    | cons b blanks =>
      obtain rfl := Option.some.inj hc
      exact .inl (hall b List.mem_cons_self)
    | nil =>
      rw [List.append_nil] at hblanks
      rcases hcomment with rfl | ⟨⟨text, rfl⟩, hlast⟩
      · rw [hmore c hc]
        exact .inl (by decide)
      · obtain rfl := Option.some.inj hc
        refine .inr ⟨rfl, fun hslash => ?_⟩
        obtain ⟨front, hfront⟩ := List.getLast?_eq_some_iff.1 hslash
        have hquoted := hlast front (hblanks ▸ hfront)
        rw [hfront, quotedAfter_append, hquoted] at hclosed
        cases hclosed
  · rw [List.append_assoc, Scanned.ofChars_blanks hall, Place.advance_append]
    rcases hcomment with rfl | ⟨⟨text, rfl⟩, -⟩
    · rfl
    · have htext : '\n' ∉ text := fun hmem =>
        hbreak' (List.mem_cons_of_mem _ (List.mem_cons_of_mem _ hmem))
      exact Scanned.ofChars_comment htext _ hmore

private theorem ofChars_line {line : List Char} (hbreak : '\n' ∉ line)
    (hquotes : quotedAfter false (stripComment false line) = false) {more : List Char}
    (hmore : ∀ c ∈ more.head?, c = '\n') (p : Place) :
    Scanned.ofChars p (line ++ more) =
        (Scanned.ofChars p (clean line)).andThen (Scanned.ofChars (p.advance line) more) ∧
      Scanned.ofChars p (clean line ++ more) =
        (Scanned.ofChars p (clean line)).andThen
          (Scanned.ofChars (p.advance (clean line)) more) := by
  obtain ⟨htidy, gap, hline, hgap⟩ := exists_gap hbreak hquotes
  obtain ⟨hfollows, hskipped⟩ := hgap more hmore
  constructor
  · have hwhole := htidy.ofChars_append hfollows p
    rwa [← List.append_assoc, ← hline, hskipped, ← Place.advance_append, ← hline] at hwhole
  · refine htidy.ofChars_append (fun c hc => .inl ?_) p
    rw [hmore c hc]
    decide

/-! ### Units -/

private theorem after_advance {line : List Char} (hbreak : '\n' ∉ line) (p : Place) :
    (p.advance line).after '\n' = ⟨p.line + 1, 1⟩ := by
  rw [Place.after, if_pos rfl, Place.line_advance hbreak]

private theorem joined_cons (line next : List Char) (lines : List (List Char)) :
    joined (line :: next :: lines) = line ++ '\n' :: joined (next :: lines) := by
  simp [joined, List.intercalate]

private theorem exists_clean (line : List Char) : ∃ gap, line = clean line ++ gap := by
  obtain ⟨comment, hline, -⟩ := exists_comment false line
  obtain ⟨blanks, hblanks⟩ := clean_prefix line
  exact ⟨blanks ++ comment, by rw [← List.append_assoc, hblanks, ← hline]⟩

private theorem ofChars_joined {lines : List (List Char)} (hbreaks : ∀ l ∈ lines, '\n' ∉ l)
    (hquotes : ∀ l ∈ lines, quotedAfter false (stripComment false l) = false) (p : Place) :
    Scanned.ofChars p (joined lines) = Scanned.ofChars p (joined (lines.map clean)) := by
  induction lines generalizing p with
  | nil => rfl
  | cons line lines ih =>
    obtain ⟨hbreak, hbreaks⟩ := List.forall_mem_cons.1 hbreaks
    obtain ⟨hquote, hquotes⟩ := List.forall_mem_cons.1 hquotes
    obtain ⟨gap, hline⟩ := exists_clean line
    have hclean : '\n' ∉ clean line := fun hmem =>
      hbreak (by rw [hline]; exact List.mem_append_left _ hmem)
    cases lines with
    | nil =>
      have hnone : ∀ c ∈ ([] : List Char).head?, c = '\n' := fun c hc => by cases hc
      obtain ⟨hraw, hleft⟩ := ofChars_line hbreak hquote hnone p
      rw [List.append_nil] at hraw hleft
      rw [Scanned.ofChars_nil] at hraw hleft
      simpa [joined, List.intercalate] using hraw.trans hleft.symm
    | cons next lines =>
      have hfeed (more : List Char) : ∀ c ∈ ('\n' :: more).head?, c = '\n' := fun c hc =>
        (Option.some.inj hc).symm
      have hskip (q : Place) (more : List Char) :
          Scanned.ofChars q ('\n' :: more) = Scanned.ofChars (q.after '\n') more :=
        Scanned.ofChars_blank (by decide) q more
      rw [List.map_cons, List.map_cons, joined_cons, joined_cons,
        (ofChars_line hbreak hquote (hfeed _) p).1, (ofChars_line hbreak hquote (hfeed _) p).2,
        hskip, hskip, after_advance hbreak, after_advance hclean, ih hbreaks hquotes,
        List.map_cons]

private theorem ofChars_dropWhile (lines : List (List Char)) (n : Nat) :
    Scanned.ofChars ⟨n, 1⟩ (joined lines) =
      Scanned.ofChars ⟨n + (lines.takeWhile List.isEmpty).length, 1⟩
        (joined (lines.dropWhile List.isEmpty)) := by
  induction lines generalizing n with
  | nil => exact (Scanned.ofChars_nil _).trans (Scanned.ofChars_nil _).symm
  | cons line lines ih =>
    cases line with
    | cons c line => rfl
    | nil =>
      rw [List.takeWhile_cons_of_pos rfl, List.dropWhile_cons_of_pos rfl, List.length_cons,
        Nat.add_comm _ 1, ← Nat.add_assoc, ← ih (n + 1)]
      cases lines with
      | nil => exact (Scanned.ofChars_nil _).trans (Scanned.ofChars_nil _).symm
      | cons next lines =>
        rw [joined_cons, List.nil_append, Scanned.ofChars_blank (by decide)]
        rfl

/-- The unit of some lines is what is left of them, without the empty lines at the beginning. -/
theorem toList_unitOf (lines : List String) :
    (unitOf lines).1.toList =
      joined ((lines.map fun l => clean l.toList).dropWhile List.isEmpty) := by
  induction lines using List.reverseRecOn with
  | nil => rfl
  | append_singleton lines line ih =>
    have hunit : (unitOf (lines ++ [line])).1.toList =
        extend (unitOf lines).1.toList line.toList := by
      rw [unitOf_concat]
      exact String.toList_ofList
    rw [hunit, ih, List.map_append, List.map_singleton, List.dropWhile_append]
    cases hleft : (lines.map fun l => clean l.toList).dropWhile List.isEmpty with
    | nil =>
      cases hclean : clean line.toList with
      | nil => simp [extend, hclean, joined, List.intercalate]
      | cons c cs => simp [extend, hclean, joined, List.intercalate]
    | cons first rest =>
      have hfirst : first ≠ [] := by
        rintro rfl
        have hhead := List.head?_dropWhile_not List.isEmpty (lines.map fun l => clean l.toList)
        rw [hleft] at hhead
        cases hhead
      have hne : joined (first :: rest) ≠ [] := by
        cases rest with
        | nil => simpa [joined, List.intercalate] using hfirst
        | cons next rest => simp [joined_cons]
      rw [extend, if_neg (by simpa using hne), List.isEmpty_cons, if_neg Bool.false_ne_true,
        joined_concat (List.cons_ne_nil _ _)]

/-! ### The character at which scanning stops -/

private theorem behind_append {line : List Char} (hbreak : '\n' ∉ line) (front : List Char) :
    Place.behind (line ++ '\n' :: front) = (Place.behind front).lowered 1 := by
  have hbehind (cs : List Char) : Place.behind cs = Place.start.advance cs :=
    (Place.advance_behind [] cs).symm
  have hnext : (Place.start.advance line).after '\n' = Place.start.lowered 1 :=
    after_advance hbreak _
  rw [hbehind, hbehind, ← Place.advance_lowered, ← hnext, List.append_cons, Place.advance_append,
    Place.advance_append]
  rfl

private theorem exists_behind_clean {lines : List (List Char)} (hbreaks : ∀ l ∈ lines, '\n' ∉ l)
    {front rest : List Char} {c : Char} (hc : c ≠ '\n')
    (h : joined (lines.map clean) = front ++ c :: rest) :
    ∃ front' rest', joined lines = front' ++ c :: rest' ∧
      Place.behind front' = Place.behind front := by
  induction lines generalizing front with
  | nil => simp [joined, List.intercalate] at h
  | cons line lines ih =>
    obtain ⟨hbreak, hbreaks⟩ := List.forall_mem_cons.1 hbreaks
    obtain ⟨gap, hline⟩ := exists_clean line
    have hclean : '\n' ∉ clean line := fun hmem =>
      hbreak (by rw [hline]; exact List.mem_append_left _ hmem)
    cases lines with
    | nil =>
      have hsingle (cs : List Char) : joined [cs] = cs := by simp [joined, List.intercalate]
      rw [List.map_singleton, hsingle] at h
      rw [hsingle]
      refine ⟨front, rest ++ gap, ?_, rfl⟩
      rw [hline, h, List.append_assoc, List.cons_append]
    | cons next lines =>
      rw [List.map_cons, List.map_cons, joined_cons] at h
      rw [joined_cons]
      rcases List.append_eq_append_iff.1 h with ⟨mid, rfl, hmid⟩ | ⟨mid, hmid, htail⟩
      · cases mid with
        | nil => exact (hc (List.cons.inj hmid).1.symm).elim
        | cons d mid =>
          obtain ⟨rfl, hmore⟩ := List.cons.inj hmid
          obtain ⟨front', rest', hjoined, hbehind⟩ := ih hbreaks hmore
          refine ⟨line ++ '\n' :: front', rest', ?_, ?_⟩
          · rw [hjoined, List.append_assoc, List.cons_append]
          · rw [behind_append hbreak, behind_append hclean, hbehind]
      · cases mid with
        | nil => exact (hc (List.cons.inj htail).1).elim
        | cons d mid =>
          obtain ⟨rfl, -⟩ := List.cons.inj htail
          refine ⟨front, mid ++ gap ++ '\n' :: joined (next :: lines), ?_, rfl⟩
          conv_lhs => rw [hline, hmid]
          simp only [List.append_assoc, List.cons_append]

private theorem exists_behind_dropWhile {lines : List (List Char)} {front rest : List Char}
    {c : Char} (h : joined (lines.dropWhile List.isEmpty) = front ++ c :: rest) :
    ∃ front', joined lines = front' ++ c :: rest ∧
      Place.behind front' = (Place.behind front).lowered (lines.takeWhile List.isEmpty).length := by
  induction lines with
  | nil => simp [joined, List.intercalate] at h
  | cons line lines ih =>
    cases line with
    | cons d line => exact ⟨front, h, rfl⟩
    | nil =>
      obtain ⟨front', hjoined, hbehind⟩ := ih h
      cases lines with
      | nil => simp [joined, List.intercalate] at hjoined
      | cons next lines =>
        refine ⟨'\n' :: front', ?_, ?_⟩
        · rw [joined_cons, List.nil_append, hjoined, List.cons_append]
        · have hdown := behind_append (List.not_mem_nil) front'
          rw [List.nil_append] at hdown
          rw [hdown, hbehind]
          rfl

/-- How many of the lines are left out because nothing is left of them before the unit begins. -/
def dropped (lines : List String) : Nat :=
  ((lines.map fun l => clean l.toList).takeWhile List.isEmpty).length

/-- A unit is scanned as its lines are: where every line without its comment closes its quotation
marks, the same tokens are found, and scanning stops at the same character. All places are as many
lines higher as lines are left out. -/
theorem scan_unitOf {lines : List String} (hbreaks : ∀ l ∈ lines, '\n' ∉ l.toList)
    (hquotes : ∀ l ∈ lines, (stripComment false l.toList).count '"' % 2 = 0) :
    (Scanned.ofString ("\n".intercalate lines)).tokens.map Token.word =
        (Scanned.ofString (unitOf lines).1).tokens.map Token.word ∧
      Scanned.ofString ("\n".intercalate lines) =
        (Scanned.ofString (unitOf lines).1).lowered (dropped lines) ∧
      ∀ p, (Scanned.ofString (unitOf lines).1).stop = some p →
        ∃ c front rest front' rest', (unitOf lines).1.toList = front ++ c :: rest ∧
          p = .behind front ∧ ("\n".intercalate lines).toList = front' ++ c :: rest' ∧
          p.lowered (dropped lines) = .behind front' := by
  have hraw : ("\n".intercalate lines).toList = joined (lines.map String.toList) := by
    rw [String.toList_intercalate]
    rfl
  have hbreaks' : ∀ l ∈ lines.map String.toList, '\n' ∉ l := List.forall_mem_map.2 hbreaks
  have hquotes' : ∀ l ∈ lines.map String.toList,
      quotedAfter false (stripComment false l) = false := by
    refine List.forall_mem_map.2 fun l hl => ?_
    rw [← Bool.not_eq_true, quotedAfter_eq_true_iff, hquotes l hl]
    decide
  have hleft : lines.map (fun l => clean l.toList) = (lines.map String.toList).map clean := by
    rw [List.map_map]
    rfl
  have hscan : Scanned.ofString ("\n".intercalate lines) =
      (Scanned.ofString (unitOf lines).1).lowered (dropped lines) := by
    rw [Scanned.ofString, Scanned.ofString, hraw, ofChars_joined hbreaks' hquotes', toList_unitOf,
      ← Scanned.ofChars_lowered, ← hleft]
    exact ofChars_dropWhile _ 1
  refine ⟨?_, hscan, fun p hp => ?_⟩
  · rw [hscan, Scanned.lowered, List.map_map]
    rfl
  · have hstart : Scanned.Leaves (unitOf lines).1.toList [] [] (unitOf lines).1.toList := .start
    obtain ⟨front, rest, hleaves, hrest, hnone, rfl⟩ := hstart.exists_of_stop hp
    obtain ⟨c, rest, rfl⟩ := List.exists_cons_of_ne_nil hrest
    have hc : c ≠ '\n' := by
      rintro rfl
      exact absurd (Lexeme.isBlank_of_none hnone) (by decide)
    have hunit := hleaves.eq_append
    have hkept := hunit
    rw [toList_unitOf] at hkept
    obtain ⟨front₁, hjoined, hdown⟩ := exists_behind_dropWhile hkept
    rw [hleft] at hjoined
    obtain ⟨front₂, rest₂, hlines, hbehind⟩ := exists_behind_clean hbreaks' hc hjoined
    exact ⟨c, front, rest, front₂, rest₂, hunit, rfl, hraw.trans hlines,
      (hbehind.trans hdown).symm⟩

/-- Nothing is left of the first line; the second one has two slashes in a string, and a comment
with a quotation mark; in the third one scanning stops. -/
theorem scan_unitOf_comments :
    let lines := ["// one \"", "print \"//\"; // \"", "x @ // y"]
    (unitOf lines).1 = "print \"//\";\nx @" ∧
      Scanned.ofString ("\n".intercalate lines) =
        (Scanned.ofString (unitOf lines).1).lowered 1 :=
  ⟨by decide, (scan_unitOf (by decide) (by decide)).2.1⟩

end Entry

end Lox
