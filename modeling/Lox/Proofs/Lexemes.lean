import Mathlib.Data.List.TakeWhile
import Lox.Proofs.Spelling

/-!
# Lexemes

What the texts of each kind of token are, and what is skipped, said without the scanner. A text is
cut into lexemes from its beginning, the longest one each time, up to its end or to a place where
no lexeme begins. Scanning does just that (`Scanned.ofChars_eq_iff`). No text is of two kinds, so
the longest lexeme is one.
-/

namespace Lox

/-- Whether `cs` is a text of the kind, wherever it stands. -/
def Kind.Writes (k : Kind) (cs : List Char) : Prop :=
  match k with
  | float => Scan.IsFraction (String.ofList cs)
  | int => cs ≠ [] ∧ ∀ c ∈ cs, Text.isDigit c = true
  | string => ∃ body, '"' ∉ body ∧ cs = '"' :: (body ++ ['"'])
  | ident => Scan.isName (String.ofList cs) = true
  | k => k.spelling?.map String.toList = some cs

/-- The characters of a token that is no string are digits, a point or those of names, if the token
is not always written in the same way. -/
theorem Kind.Writes.chars {k : Kind} {cs : List Char} (h : k.Writes cs) (hk : k ≠ .string) :
    (∀ c ∈ cs, Text.isDigit c = true ∨ c = '.' ∨ Scan.continuesName c = true) ∨
      ∃ s, k.spelling? = some s ∧ cs = s.toList := by
  cases k with
  | string => exact (hk rfl).elim
  | float =>
    obtain ⟨whole, fraction, htext, -, hwhole, -, hfraction⟩ := h
    rw [String.toList_ofList] at htext
    refine .inl fun c hc => ?_
    rw [htext, List.mem_append, List.mem_cons] at hc
    rcases hc with hc | rfl | hc
    · exact .inl (hwhole c hc)
    · exact .inr (.inl rfl)
    · exact .inl (hfraction c hc)
  | int => exact .inl fun c hc => .inl (h.2 c hc)
  | ident =>
    have hname := Scan.continuesName_of_isName h
    rw [String.toList_ofList] at hname
    exact .inl fun c hc => .inr (.inr (hname c hc))
  | _ =>
    obtain ⟨s, hs, rfl⟩ := Option.map_eq_some_iff.1 h
    exact .inr ⟨s, hs, rfl⟩

namespace Lexeme

/-- Whether `cs` is a text of the lexeme. White space is skipped, and so is a comment up to the end
of its line. -/
def Writes : Lexeme → List Char → Prop
  | token k, cs => k.Writes cs
  | skipped, cs =>
    (cs ≠ [] ∧ ∀ c ∈ cs, Text.isBlank c = true) ∨ ∃ line, '\n' ∉ line ∧ cs = '/' :: '/' :: line

/-- The lexeme has the text `cs` at the start of `cs ++ rest`, and no lexeme there is longer. -/
structure Longest (l : Lexeme) (cs rest : List Char) : Prop where
  written : l.Writes cs
  longest : ∀ (l' : Lexeme) (cs' : List Char), l'.Writes cs' → cs' <+: cs ++ rest →
    cs'.length ≤ cs.length

end Lexeme

/-- A text that starts at the place `p` is cut into lexemes, the longest one each time. -/
inductive Scanned.Cuts : Place → List Char → Scanned → Prop
  | done (p : Place) : Cuts p [] ⟨[], none⟩
  | stuck {p : Place} {cs : List Char} (hcs : cs ≠ [])
      (h : ∀ (l : Lexeme) (cs' : List Char), l.Writes cs' → ¬cs' <+: cs) : Cuts p cs ⟨[], some p⟩
  | lexeme {p : Place} {l : Lexeme} {cs rest : List Char} {s : Scanned} (h : l.Longest cs rest)
      (hs : Cuts (p.advance cs) rest s) : Cuts p (cs ++ rest) (before p cs l s)

/-! ### The scanner finds the longest lexeme -/

namespace Scan

/-- A text that begins with two slashes begins with a comment. -/
theorem lexeme?_comment (rest : List Char) :
    lexeme? ('/' :: '/' :: rest) =
      some (.skipped, 2 + (rest.takeWhile fun c => decide (c ≠ '\n')).length) := rfl

/-- The scanner finds a lexeme of `n` characters at least, and `l` if it has no more. -/
def Finds (text : List Char) (l : Lexeme) (n : Nat) : Prop :=
  ∃ (l' : Lexeme) (m : Nat), lexeme? text = some (l', m) ∧ n ≤ m ∧ (m = n → l' = l)

private theorem finds_blank {cs : List Char} (hne : cs ≠ [])
    (hcs : ∀ c ∈ cs, Text.isBlank c = true) (rest : List Char) :
    Finds (cs ++ rest) .skipped cs.length := by
  cases cs with
  | nil => exact (hne rfl).elim
  | cons c cs =>
    obtain ⟨hc, hcs⟩ := List.forall_mem_cons.1 hcs
    refine ⟨_, _, lexeme?_blank (cs ++ rest) hc, ?_, fun _ => rfl⟩
    rw [List.takeWhile_append_of_pos hcs, List.length_append, List.length_cons]
    omega

private theorem finds_comment {line : List Char} (hline : '\n' ∉ line) (rest : List Char) :
    Finds ('/' :: '/' :: line ++ rest) .skipped ('/' :: '/' :: line).length := by
  have hall : ∀ c ∈ line, decide (c ≠ '\n') = true := by
    intro c hc
    exact decide_eq_true fun hbreak => hline (hbreak ▸ hc)
  refine ⟨_, _, lexeme?_comment (line ++ rest), ?_, fun _ => rfl⟩
  rw [List.takeWhile_append_of_pos hall, List.length_append, List.length_cons, List.length_cons]
  omega

private theorem number_of_digits {cs : List Char} (hcs : ∀ c ∈ cs, Text.isDigit c = true)
    (rest : List Char) :
    cs.length ≤ (number (cs ++ rest)).2 ∧
      ((number (cs ++ rest)).2 = cs.length → (number (cs ++ rest)).1 = .int) := by
  have hwhole : ((cs ++ rest).takeWhile Text.isDigit).length =
      cs.length + (rest.takeWhile Text.isDigit).length := by
    rw [List.takeWhile_append_of_pos hcs, List.length_append]
  unfold number
  simp only [hwhole]
  split
  · split
    · exact ⟨Nat.le_add_right _ _, fun _ => rfl⟩
    · constructor
      · dsimp only
        omega
      · intro hlength
        dsimp only at hlength
        omega
  · exact ⟨Nat.le_add_right _ _, fun _ => rfl⟩

private theorem number_of_fraction {whole fraction : List Char}
    (hwhole : ∀ c ∈ whole, Text.isDigit c = true) (hne : fraction ≠ [])
    (hfraction : ∀ c ∈ fraction, Text.isDigit c = true) (rest : List Char) :
    number (whole ++ '.' :: (fraction ++ rest)) =
      (.float, whole.length + 1 + (fraction ++ rest.takeWhile Text.isDigit).length) := by
  have hpoint : Text.isDigit '.' = false := by decide
  have htake : (whole ++ '.' :: (fraction ++ rest)).takeWhile Text.isDigit = whole := by
    rw [List.takeWhile_append_of_pos hwhole, List.takeWhile_cons, hpoint]
    exact List.append_nil whole
  have hdrop : (whole ++ '.' :: (fraction ++ rest)).drop whole.length =
      '.' :: (fraction ++ rest) := List.drop_left' rfl
  have hlength : (fraction ++ rest.takeWhile Text.isDigit).length ≠ 0 := by
    intro hzero
    exact hne (List.append_eq_nil_iff.1 (List.length_eq_zero_iff.1 hzero)).1
  rw [number, htake, hdrop]
  simp only [List.takeWhile_append_of_pos hfraction, if_neg hlength]

private theorem finds_int {cs : List Char} (hne : cs ≠ [])
    (hcs : ∀ c ∈ cs, Text.isDigit c = true) (rest : List Char) :
    Finds (cs ++ rest) (.token .int) cs.length := by
  cases cs with
  | nil => exact (hne rfl).elim
  | cons c cs =>
    obtain ⟨hle, hint⟩ := number_of_digits hcs rest
    exact ⟨_, _, lexeme?_digit (cs ++ rest) (hcs c List.mem_cons_self), hle,
      fun hlength => congrArg Lexeme.token (hint hlength)⟩

private theorem finds_float {cs : List Char} (hcs : IsFraction (String.ofList cs))
    (rest : List Char) : Finds (cs ++ rest) (.token .float) cs.length := by
  obtain ⟨whole, fraction, htext, hne, hwhole, hne', hfraction⟩ := hcs
  rw [String.toList_ofList] at htext
  subst htext
  have hnumber := number_of_fraction hwhole hne' hfraction rest
  rw [List.append_assoc, List.cons_append]
  cases whole with
  | nil => exact (hne rfl).elim
  | cons c whole =>
    rw [List.cons_append] at hnumber ⊢
    refine ⟨_, _, lexeme?_digit _ (hwhole c List.mem_cons_self), ?_, ?_⟩
    · rw [hnumber]
      simp only [List.length_append, List.length_cons]
      omega
    · intro _
      rw [hnumber]

private theorem finds_string {body : List Char} (hbody : '"' ∉ body) (rest : List Char) :
    Finds ('"' :: (body ++ ['"']) ++ rest) (.token .string) ('"' :: (body ++ ['"'])).length := by
  have hlex := lexeme?_quote body rest hbody
  rw [List.cons_append, List.append_assoc, List.singleton_append]
  refine ⟨_, _, hlex, ?_, fun _ => rfl⟩
  simp

private theorem finds_word {c : Char} {cs : List Char} {k : Kind} (hc : startsName c = true)
    (hcs : ∀ d ∈ cs, continuesName d = true) (hk : wordKind (c :: cs) = k) (rest : List Char) :
    Finds (c :: cs ++ rest) (.token k) (c :: cs).length := by
  refine ⟨_, _, lexeme?_name (cs ++ rest) hc, ?_, ?_⟩
  · rw [List.takeWhile_append_of_pos hcs, List.length_cons, List.length_cons, List.length_append]
    omega
  · intro hlength
    rw [List.takeWhile_append_of_pos hcs] at hlength ⊢
    simp only [List.length_cons, List.length_append] at hlength
    have hnil : rest.takeWhile continuesName = [] := List.length_eq_zero_iff.1 (by omega)
    rw [hnil, List.append_nil, hk]

private theorem finds_name {cs : List Char} (hcs : isName (String.ofList cs) = true)
    (rest : List Char) : Finds (cs ++ rest) (.token .ident) cs.length := by
  rw [isName, String.toList_ofList] at hcs
  cases cs with
  | nil => cases hcs
  | cons c cs =>
    simp only [Bool.and_eq_true, List.all_eq_true, Option.isNone_iff_eq_none] at hcs
    refine finds_word hcs.1.1 hcs.1.2 ?_ rest
    rw [wordKind, hcs.2, Option.getD_none]

private theorem finds_sign {c next : Char} {k : Kind} {l : Lexeme}
    (hlong : ∀ rest, ∃ m, lexeme? (c :: next :: rest) = some (l, 2 + m))
    (hshort : ∀ rest, (∀ more, rest = next :: more → False) →
      lexeme? (c :: rest) = some (.token k, 1)) (rest : List Char) :
    Finds (c :: rest) (.token k) 1 := by
  by_cases hnext : ∃ more, rest = next :: more
  · obtain ⟨more, rfl⟩ := hnext
    obtain ⟨m, hm⟩ := hlong more
    exact ⟨l, 2 + m, hm, by omega, by omega⟩
  · exact ⟨_, 1, hshort rest fun more hmore => hnext ⟨more, hmore⟩, Nat.le_refl 1, fun _ => rfl⟩

private theorem lexeme?_slash {rest : List Char} (h : ∀ more, rest = '/' :: more → False) :
    lexeme? ('/' :: rest) = some (.token .divide, 1) := by
  cases rest with
  | nil => rfl
  | cons c rest =>
    have hc : c ≠ '/' := fun hc => h rest (hc ▸ rfl)
    have hblank : Text.isBlank '/' = false := by decide
    have hdigit : Text.isDigit '/' = false := by decide
    have hname : startsName '/' = false := by decide
    unfold lexeme?
    simp [hblank, hdigit, hname, hc, sign?]

private theorem lexeme?_noEqual {rest : List Char} (h : ∀ more, rest = '=' :: more → False) :
    lexeme? ('=' :: rest) = some (.token .assign, 1) ∧
    lexeme? ('!' :: rest) = some (.token .bang, 1) ∧
    lexeme? ('>' :: rest) = some (.token .greater, 1) ∧
    lexeme? ('<' :: rest) = some (.token .lower, 1) := by
  have hsign (c : Char) (k : Kind) (hc : sign? (c :: rest) = some (k, 1)) :
      (sign? (c :: rest)).map (fun s => (Lexeme.token s.1, s.2)) = some (.token k, 1) := by
    rw [hc, Option.map_some]
  refine ⟨hsign '=' .assign ?_, hsign '!' .bang ?_, hsign '>' .greater ?_, hsign '<' .lower ?_⟩
  all_goals
    rw [sign?]
    exact h

private theorem finds_spelling {k : Kind} {cs : List Char}
    (h : k.spelling?.map String.toList = some cs) (rest : List Char) :
    Finds (cs ++ rest) (.token k) cs.length := by
  cases k with
  | float | int | string | ident | foreign => cases h
  | yes | no | nil | or | and | funWord | printWord | varWord | forWord | ifWord | elseWord
  | returnWord | whileWord =>
    obtain rfl := Option.some.inj h
    exact finds_word (by decide) (List.all_eq_true.1 rfl) rfl rest
  | equal | notEqual | greaterEqual | lowerEqual | plus | minus | times | dot | tilde | leftParen
  | rightParen | leftBrace | rightBrace | comma | semicolon =>
    obtain rfl := Option.some.inj h
    exact ⟨_, _, rfl, Nat.le_refl _, fun _ => rfl⟩
  | assign =>
    obtain rfl := Option.some.inj h
    exact finds_sign (fun _ => ⟨0, rfl⟩) (fun _ hrest => (lexeme?_noEqual hrest).1) rest
  | bang =>
    obtain rfl := Option.some.inj h
    exact finds_sign (fun _ => ⟨0, rfl⟩) (fun _ hrest => (lexeme?_noEqual hrest).2.1) rest
  | greater =>
    obtain rfl := Option.some.inj h
    exact finds_sign (fun _ => ⟨0, rfl⟩) (fun _ hrest => (lexeme?_noEqual hrest).2.2.1) rest
  | lower =>
    obtain rfl := Option.some.inj h
    exact finds_sign (fun _ => ⟨0, rfl⟩) (fun _ hrest => (lexeme?_noEqual hrest).2.2.2) rest
  | divide =>
    obtain rfl := Option.some.inj h
    exact finds_sign (fun rest => ⟨_, lexeme?_comment rest⟩) (fun _ => lexeme?_slash) rest

private theorem finds_of_writes {l : Lexeme} {cs : List Char} (h : l.Writes cs)
    (rest : List Char) : Finds (cs ++ rest) l cs.length := by
  cases l with
  | skipped =>
    rcases h with ⟨hne, hcs⟩ | ⟨line, hline, rfl⟩
    · exact finds_blank hne hcs rest
    · exact finds_comment hline rest
  | token k =>
    cases k with
    | float => exact finds_float h rest
    | int => exact finds_int h.1 h.2 rest
    | string =>
      obtain ⟨body, hbody, rfl⟩ := h
      exact finds_string hbody rest
    | ident => exact finds_name h rest
    | _ => exact finds_spelling h rest

/-! ### What the scanner finds is a lexeme -/

/-- The first `n` characters of the text are a text of the lexeme. -/
def Cutting (text : List Char) (l : Lexeme) (n : Nat) : Prop :=
  ∃ cs rest, text = cs ++ rest ∧ cs.length = n ∧ l.Writes cs

private theorem cutting_takeWhile {p : Char → Bool} (start : List Char) {rest : List Char}
    {l : Lexeme} (h : l.Writes (start ++ rest.takeWhile p)) :
    Cutting (start ++ rest) l (start ++ rest.takeWhile p).length := by
  refine ⟨_, rest.dropWhile p, ?_, rfl, h⟩
  rw [List.append_assoc, List.takeWhile_append_dropWhile]

private theorem drop_takeWhile (p : Char → Bool) (cs : List Char) :
    cs.drop (cs.takeWhile p).length = cs.dropWhile p := by
  have hdrop : (cs.takeWhile p ++ cs.dropWhile p).drop (cs.takeWhile p).length =
      cs.dropWhile p := List.drop_left' rfl
  rwa [List.takeWhile_append_dropWhile] at hdrop

private theorem cutting_number {text : List Char} (hne : text.takeWhile Text.isDigit ≠ []) :
    Cutting text (.token (number text).1) (number text).2 := by
  have hdigits (cs : List Char) : ∀ d ∈ cs.takeWhile Text.isDigit, Text.isDigit d = true :=
    fun d hd => List.mem_takeWhile_imp hd
  have hint : Cutting text (.token .int) (text.takeWhile Text.isDigit).length :=
    cutting_takeWhile [] ⟨hne, hdigits text⟩
  have hsplit : text.takeWhile Text.isDigit ++ text.dropWhile Text.isDigit = text :=
    List.takeWhile_append_dropWhile
  unfold number
  simp only [drop_takeWhile]
  split
  · rename_i after hafter
    split
    · exact hint
    · rename_i hfraction
      have hwrites : Scan.IsFraction (String.ofList
          (text.takeWhile Text.isDigit ++ ['.'] ++ after.takeWhile Text.isDigit)) := by
        refine ⟨_, _, ?_, hne, hdigits text, fun hnil => hfraction ?_, hdigits after⟩
        · rw [String.toList_ofList, List.append_assoc, List.singleton_append]
        · rw [hnil, List.length_nil]
      have hcut := cutting_takeWhile (l := .token .float) _ hwrites
      rw [hafter] at hsplit
      rw [List.append_assoc, List.singleton_append, hsplit] at hcut
      simpa only [List.length_append, List.length_singleton] using hcut
  · exact hint

/-- What is always written in the same way is a text of its kind. -/
theorem writes_of_spelling {k : Kind} {cs : List Char}
    (h : k.spelling?.map String.toList = some cs) : k.Writes cs := by
  cases k with
  | float | int | string | ident | foreign => cases h
  | _ => exact h

private theorem writes_wordKind {c : Char} {cs : List Char} (hc : startsName c = true)
    (hcs : ∀ d ∈ cs, continuesName d = true) : (wordKind (c :: cs)).Writes (c :: cs) := by
  rw [wordKind]
  cases hword : words.lookup (c :: cs) with
  | none =>
    show isName (String.ofList (c :: cs)) = true
    simp only [isName, String.toList_ofList, hc, hword, Option.isNone_none, Bool.true_and,
      Bool.and_true, List.all_eq_true]
    exact hcs
  | some k =>
    have hall : ∀ w ∈ words, w.2.spelling?.map String.toList = some w.1 := by decide
    obtain ⟨before, after, hwords, -⟩ := List.lookup_eq_some_iff.1 hword
    refine writes_of_spelling (hall (c :: cs, k) ?_)
    rw [hwords]
    exact List.mem_append_right _ List.mem_cons_self

private theorem cutting_sign {text : List Char} {k : Kind} {n : Nat}
    (h : sign? text = some (k, n)) : Cutting text (.token k) n := by
  have hcut (cs : List Char) {rest : List Char} {j : Kind}
      (hj : j.spelling?.map String.toList = some cs) (h : some (j, cs.length) = some (k, n)) :
      Cutting (cs ++ rest) (.token k) n := by
    cases h
    exact ⟨cs, rest, rfl, rfl, writes_of_spelling hj⟩
  unfold sign? at h
  split at h
  all_goals first
    | exact hcut [_, _] rfl h
    | exact hcut [_] rfl h
    | cases h

private theorem cutting_string {rest : List Char}
    (h : rest.dropWhile (fun c => decide (c ≠ '"')) ≠ []) :
    Cutting ('"' :: rest) (.token .string)
      ((rest.takeWhile fun c => decide (c ≠ '"')).length + 2) := by
  obtain ⟨c, after, hafter⟩ := List.exists_cons_of_ne_nil h
  have hc : c = '"' := by
    have hhead := List.head?_dropWhile_not (fun c => decide (c ≠ '"')) rest
    rw [hafter] at hhead
    simpa using hhead
  subst hc
  have hsplit := List.takeWhile_append_dropWhile (p := fun c => decide (c ≠ '"')) (l := rest)
  rw [hafter] at hsplit
  refine ⟨'"' :: (rest.takeWhile (fun c => decide (c ≠ '"')) ++ ['"']), after, ?_, ?_, ?_⟩
  · rw [List.cons_append, List.append_assoc, List.singleton_append, hsplit]
  · rw [List.length_cons, List.length_append, List.length_singleton]
  · refine ⟨_, fun hmem => ?_, rfl⟩
    have hquote := List.mem_takeWhile_imp hmem
    exact of_decide_eq_true hquote rfl

/-- The scanner cuts off a text of the lexeme. -/
theorem cutting_of_lexeme? {text : List Char} {l : Lexeme} {n : Nat}
    (h : lexeme? text = some (l, n)) : Cutting text l n := by
  cases text with
  | nil => cases h
  | cons c rest =>
    by_cases hblank : Text.isBlank c = true
    · rw [lexeme?_blank rest hblank] at h
      cases h
      have hall : ∀ d ∈ c :: rest.takeWhile Text.isBlank, Text.isBlank d = true :=
        List.forall_mem_cons.2 ⟨hblank, fun d hd => List.mem_takeWhile_imp hd⟩
      rw [Nat.add_comm]
      exact cutting_takeWhile [c] (.inl ⟨List.cons_ne_nil _ _, hall⟩)
    · by_cases hdigit : Text.isDigit c = true
      · rw [lexeme?_digit rest hdigit] at h
        cases h
        apply cutting_number
        rw [List.takeWhile_cons, hdigit]
        exact List.cons_ne_nil _ _
      · by_cases hname : startsName c = true
        · rw [lexeme?_name rest hname] at h
          cases h
          exact cutting_takeWhile [c]
            (writes_wordKind hname fun d hd => List.mem_takeWhile_imp hd)
        · unfold lexeme? at h
          simp only [hblank, hdigit, hname, drop_takeWhile, Bool.false_eq_true, if_false] at h
          split at h
          · rename_i hquote
            subst hquote
            split at h
            · cases h
            · rename_i hend
              cases h
              exact cutting_string fun hnil => hend (List.isEmpty_iff.2 hnil)
          · split at h
            · rename_i line
              cases h
              rw [Nat.add_comm]
              refine cutting_takeWhile ['/', '/'] (.inr ⟨_, fun hmem => ?_, rfl⟩)
              have hbreak := List.mem_takeWhile_imp hmem
              exact of_decide_eq_true hbreak rfl
            · obtain ⟨s, hs, hpair⟩ := Option.map_eq_some_iff.1 h
              cases hpair
              exact cutting_sign hs

end Scan

/-! ### Scanning is cutting -/

namespace Lexeme

/-- A lexeme has a character. -/
theorem Writes.ne_nil {l : Lexeme} {cs : List Char} (h : l.Writes cs) : cs ≠ [] := by
  intro hnil
  subst hnil
  obtain ⟨l', m, hlex, -⟩ := Scan.finds_of_writes h []
  cases hlex

/-- The scanner finds the longest lexeme, and no other. -/
theorem longest_iff {l : Lexeme} {cs rest : List Char} :
    l.Longest cs rest ↔ Scan.lexeme? (cs ++ rest) = some (l, cs.length) := by
  constructor
  · intro h
    obtain ⟨l', m, hlex, hle, hl⟩ := Scan.finds_of_writes h.written rest
    obtain ⟨cs', rest', htext, hm, hwritten⟩ := Scan.cutting_of_lexeme? hlex
    have hge := h.longest l' cs' hwritten (htext ▸ List.prefix_append cs' rest')
    have hlength : m = cs.length := by omega
    rw [hlex, hl hlength, hlength]
  · intro h
    obtain ⟨cs', rest', htext, hm, hwritten⟩ := Scan.cutting_of_lexeme? h
    obtain rfl := List.append_inj_left htext hm.symm
    refine ⟨hwritten, fun l' cs' hwritten' hprefix => ?_⟩
    obtain ⟨rest'', htext'⟩ := hprefix
    obtain ⟨l'', m, hlex, hle, -⟩ := Scan.finds_of_writes hwritten' rest''
    rw [htext', h] at hlex
    cases hlex
    exact hle

/-- The scanner finds nothing where no lexeme begins. -/
theorem none_iff {cs : List Char} :
    (∀ (l : Lexeme) (cs' : List Char), l.Writes cs' → ¬cs' <+: cs) ↔ Scan.lexeme? cs = none := by
  constructor
  · intro h
    rw [Option.eq_none_iff_forall_ne_some]
    rintro ⟨l, n⟩ hlex
    obtain ⟨cs', rest, htext, -, hwritten⟩ := Scan.cutting_of_lexeme? hlex
    exact h l cs' hwritten (htext ▸ List.prefix_append cs' rest)
  · intro h l cs' hwritten hprefix
    obtain ⟨rest, htext⟩ := hprefix
    obtain ⟨l', m, hlex, -⟩ := Scan.finds_of_writes hwritten rest
    rw [htext, h] at hlex
    cases hlex

end Lexeme

namespace Scanned

/-- Nothing is scanned where no lexeme begins. -/
theorem ofChars_stuck {cs : List Char} (p : Place) (hcs : cs ≠ []) (h : Scan.lexeme? cs = none) :
    ofChars p cs = ⟨[], some p⟩ := by
  cases cs with
  | nil => exact (hcs rfl).elim
  | cons c cs =>
    rw [ofChars, h]

/-- Scanning cuts a text. -/
theorem cuts_ofChars (p : Place) (cs : List Char) : Cuts p cs (ofChars p cs) := by
  induction hn : cs.length using Nat.strongRecOn generalizing p cs with
  | ind n ih =>
    subst hn
    cases hlex : Scan.lexeme? cs with
    | none =>
      by_cases hcs : cs = []
      · subst hcs
        rw [ofChars_nil]
        exact .done p
      · rw [ofChars_stuck p hcs hlex]
        exact .stuck hcs (Lexeme.none_iff.2 hlex)
    | some found =>
      obtain ⟨l, n⟩ := found
      obtain ⟨cs', rest, rfl, rfl, hwritten⟩ := Scan.cutting_of_lexeme? hlex
      have hne := hwritten.ne_nil
      have hpos := List.length_pos_iff.2 hne
      rw [ofChars_append p hne hlex]
      refine .lexeme (Lexeme.longest_iff.2 hlex) (ih rest.length ?_ _ rest rfl)
      rw [List.length_append]
      omega

/-- What is scanned from a text is what it is cut into. -/
theorem ofChars_eq_iff {p : Place} {cs : List Char} {s : Scanned} :
    ofChars p cs = s ↔ Cuts p cs s := by
  constructor
  · intro h
    subst h
    exact cuts_ofChars p cs
  · intro h
    induction h with
    | done p => exact ofChars_nil p
    | stuck hcs h => exact ofChars_stuck _ hcs (Lexeme.none_iff.1 h)
    | lexeme h _ ih => rw [ofChars_append _ h.written.ne_nil (Lexeme.longest_iff.1 h), ih]

/-- The text of a token is one of its kind. -/
theorem Cuts.writes {p : Place} {cs : List Char} {s : Scanned} (h : Cuts p cs s) :
    ∀ t ∈ s.tokens, t.kind.Writes t.text.toList := by
  induction h with
  | done | stuck =>
    intro t ht
    cases ht
  | @lexeme p l cs rest s hl hs ih =>
    intro t ht
    cases l with
    | skipped => exact ih t ht
    | token k =>
      rcases List.mem_cons.1 ht with rfl | ht
      · rw [String.toList_ofList]
        exact hl.written
      · exact ih t ht

end Scanned

end Lox
