import Mathlib.Data.List.DropRight
import Mathlib.Data.List.Induction
import Lox.Proofs.Brackets

/-!
# Units that go on

Lines are entered until no bracket of the unit stands open. Comments are taken from each line for
itself, as if it began outside of quotation marks. A comment that follows the end of a string which
an earlier line began therefore stays, and what looks like a bracket in it counts. Without such a
line, a unit that is held back for more lines is no program.
-/

namespace Lox

namespace Entry

/-- The unit that lines give one after the other, and whether it goes on in the next line. -/
def unitOf (lines : List String) : String × Bool :=
  lines.foldl (fun unit line => preprocess line unit.1) ("", false)

/-- The last line is put to the unit of the others. -/
theorem unitOf_concat (lines : List String) (line : String) :
    unitOf (lines ++ [line]) = preprocess line (unitOf lines).1 := by
  simp [unitOf]

/-- A unit goes on just if brackets of it stand open. -/
theorem snd_unitOf (lines : List String) : (unitOf lines).2 = isOpen (unitOf lines).1.toList := by
  induction lines using List.reverseRecOn with
  | nil => rfl
  | append_singleton lines line _ => simp [unitOf_concat, preprocess]

/-! ### Comments that stay -/

/-- A text ends within quotation marks if it has an odd number of them. -/
theorem quotedAfter_eq_true_iff (cs : List Char) :
    quotedAfter false cs = true ↔ cs.count '"' % 2 = 1 := by
  induction cs with
  | nil => simp [quotedAfter]
  | cons c cs ih =>
    by_cases hc : c = '"'
    · subst hc
      have hnot := quotedAfter_not false cs
      simp only [Bool.not_false] at hnot
      simp only [quotedAfter, if_true, Bool.not_false, hnot, List.count_cons_self]
      rw [Bool.not_eq_true', ← Bool.not_eq_true, ih]
      omega
    · simp [quotedAfter, hc, ih]

private theorem head?_stripComment {q : Bool} {line rest : List Char} {c : Char}
    (h : stripComment q line = c :: rest) : line.head? = some c := by
  unfold stripComment at h
  split at h
  · cases h
  · cases h
    rfl
  · split at h
    · cases h
      rfl
    · cases h
  · cases h
    rfl

/-- Two slashes that are left in a line stand within quotation marks. -/
theorem quotedAfter_stripComment {q : Bool} {line front rest : List Char}
    (h : stripComment q line = front ++ '/' :: '/' :: rest) : quotedAfter q front = true := by
  fun_induction stripComment q line generalizing front with
  | case1 => simp at h
  | case2 q cs ih =>
    cases front with
    | nil => simp at h
    | cons c front =>
      obtain ⟨rfl, htail⟩ := List.cons_eq_cons.1 h
      exact ih htail
  | case3 cs ih =>
    cases front with
    | nil => rfl
    | cons c front =>
      obtain ⟨rfl, htail⟩ := List.cons_eq_cons.1 h
      have hquoted := ih htail
      simpa [quotedAfter] using hquoted
  | case4 => simp at h
  | case5 q c cs hquote hslash ih =>
    cases front with
    | nil =>
      -- the first slash would have begun a comment with the second one
      obtain ⟨rfl, htail⟩ := List.cons_eq_cons.1 h
      have hhead := head?_stripComment htail
      cases cs with
      | nil => simp at hhead
      | cons d ds => exact (hslash ds rfl (by simpa using hhead)).elim
    | cons d front =>
      obtain ⟨rfl, htail⟩ := List.cons_eq_cons.1 h
      have hc : c ≠ '"' := hquote
      simpa [quotedAfter, hc] using ih htail

/-- A clean line is a beginning of the line without its comment. -/
theorem clean_prefix (line : List Char) : clean line <+: stripComment false line :=
  List.rdropWhile_prefix Text.isBlank _

/-- Where two slashes stand in a unit outside of quotation marks, a line that begins within them
has left a comment there. -/
theorem exists_of_comment {lines : List String} {front rest : List Char}
    (h : (unitOf lines).1.toList = front ++ '/' :: '/' :: rest)
    (hfront : quotedAfter false front = false) :
    ∃ before line after, lines = before ++ line :: after ∧
      quotedAfter false (unitOf before).1.toList = true ∧ ['/', '/'] <:+: clean line.toList := by
  induction lines using List.reverseRecOn generalizing rest with
  | nil => simp [unitOf] at h
  | append_singleton lines line ih =>
    rw [unitOf_concat] at h
    have hunit : extend (unitOf lines).1.toList line.toList = front ++ '/' :: '/' :: rest := by
      simpa [preprocess] using h
    -- a comment that the last line has left
    have hlast {front' : List Char} (hclean : clean line.toList = front' ++ '/' :: '/' :: rest)
        (hquoted : quotedAfter (quotedAfter false (unitOf lines).1.toList) front' = false) :
        quotedAfter false (unitOf lines).1.toList = true ∧ ['/', '/'] <:+: clean line.toList := by
      obtain ⟨blanks, hblanks⟩ := clean_prefix line.toList
      rw [hclean, List.append_assoc] at hblanks
      have hinside := quotedAfter_stripComment hblanks.symm
      refine ⟨?_, front', rest, ?_⟩
      · by_contra hbegin
        rw [Bool.not_eq_true] at hbegin
        rw [hbegin, hinside] at hquoted
        cases hquoted
      · rw [hclean]
        simp
    by_cases hempty : (unitOf lines).1.toList = []
    · rw [extend, hempty] at hunit
      obtain ⟨hbegin, -⟩ := hlast hunit (by rw [hempty]; exact hfront)
      rw [hempty] at hbegin
      cases hbegin
    · have hsplit : (unitOf lines).1.toList ++ '\n' :: clean line.toList
          = front ++ '/' :: '/' :: rest := by
        simpa [extend, hempty] using hunit
      rcases List.append_eq_append_iff.1 hsplit with ⟨mid, rfl, hmid⟩ | ⟨mid, hmid, htail⟩
      · cases mid with
        | nil => simp at hmid
        | cons c mid =>
          obtain ⟨rfl, hclean⟩ := List.cons_eq_cons.1 hmid
          have hquoted : quotedAfter (quotedAfter false (unitOf lines).1.toList) mid = false := by
            simpa [quotedAfter] using hfront
          exact ⟨lines, line, [], rfl, hlast hclean hquoted⟩
      · -- the line feed is no slash, so both slashes stand in the unit so far
        obtain ⟨more, rfl⟩ : ∃ more, mid = '/' :: '/' :: more := by
          cases mid with
          | nil => simp at htail
          | cons c mid =>
            cases mid with
            | nil => simp at htail
            | cons d mid =>
              simp only [List.cons_append, List.cons_eq_cons] at htail
              exact ⟨mid, by rw [← htail.1, ← htail.2.1]⟩
        obtain ⟨before, line', after, rfl, hcomment⟩ := ih hmid
        exact ⟨before, line', after ++ [line], by simp, hcomment⟩

/-! ### Units held back -/

/-- A unit that is held back for more lines is no program, unless a line that begins within
quotation marks has kept what looks like a comment. -/
theorem rejected_of_open {lines : List String} (hopen : (unitOf lines).2 = true)
    (hlines : ∀ i : Fin lines.length, (unitOf (lines.take i)).1.toList.count '"' % 2 = 1 →
      ¬['/', '/'] <:+: clean (lines.get i).toList) :
    ∃ e, Tree.ofSource (unitOf lines).1 = .error e := by
  cases hsource : Tree.ofSource (unitOf lines).1 with
  | error e => exact ⟨e, rfl⟩
  | ok t =>
    rcases Tree.openCount_of_source hsource with hcount | ⟨front, rest, hunit, hfront⟩
    · rw [snd_unitOf, isOpen, hcount] at hopen
      cases hopen
    · obtain ⟨before, line, after, rfl, hquoted, hcomment⟩ := exists_of_comment hunit hfront
      have hbound : before.length < (before ++ line :: after).length := by simp
      have hkept := hlines ⟨before.length, hbound⟩
      simp only [List.take_left', List.get_eq_getElem, List.getElem_append_right, Nat.le_refl,
        Nat.sub_self, List.getElem_cons_zero] at hkept
      exact (hkept ((quotedAfter_eq_true_iff _).1 hquoted) hcomment).elim

/-- The second line has two slashes in a string, the third one a comment with a brace in it; both
begin outside of quotation marks, and the unit is held back for its first brace alone. -/
theorem rejected_of_open_comment :
    ∃ e, Tree.ofSource (unitOf ["\x7b", "print \"a // b\";", "print 1; // \x7d"]).1 = .error e :=
  rejected_of_open (by decide) (by decide)

/-- A string in a block goes on in the next line, where the block ends and a comment follows. The
comment stays, its brace counts, and the unit waits for more lines, though it is a program as it
stands. -/
theorem program_held_back :
    (unitOf ["\x7b print \"a", "b\"; \x7d // \x7b"]).2 = true ∧
      ∃ t, Tree.ofSource (unitOf ["\x7b print \"a", "b\"; \x7d // \x7b"]).1 = .ok t := by
  refine ⟨by decide, ?_⟩
  rw [Tree.ofSource, Scanned.ofString_pieces [(.token .leftBrace, "\x7b".toList),
    (.skipped, " ".toList), (.token .printWord, "print".toList), (.skipped, " ".toList),
    (.token .string, "\"a\nb\"".toList), (.token .semicolon, ";".toList), (.skipped, " ".toList),
    (.token .rightBrace, "\x7d".toList), (.skipped, " ".toList), (.skipped, "// \x7b".toList)]
    (by decide) (by decide)]
  exact ⟨_, by with_unfolding_all rfl⟩

end Entry

end Lox
