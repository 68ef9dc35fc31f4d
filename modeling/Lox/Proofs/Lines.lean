import Mathlib.Data.List.DropRight
import Lox.Text.Blank
import Lox.Text.Lines

/-!
# Lines

Positions count line feeds, and what is shown of a text are its lines of display, which end at
other characters as well. There are always as many lines of display as line feeds, so the line of
display with the number of a position exists. It is the line that holds the position where all
lines of display before it end at line feeds.
-/

namespace Lox.Text

/-! ### Between line feeds -/

/-- What stands behind the last line feed of a text. -/
def lastLine (cs : List Char) : List Char := cs.rtakeWhile fun c => decide (c ≠ '\n')

/-- A text up to its last line feed. -/
def earlierLines (cs : List Char) : List Char := cs.rdropWhile fun c => decide (c ≠ '\n')

/-- A line feed ends the last line. -/
@[simp] theorem lastLine_newline (cs : List Char) : lastLine (cs ++ ['\n']) = [] :=
  List.rtakeWhile_concat_neg _ _ _ (by decide)

/-- All other characters belong to the last line. -/
theorem lastLine_concat {c : Char} (hc : c ≠ '\n') (cs : List Char) :
    lastLine (cs ++ [c]) = lastLine cs ++ [c] :=
  List.rtakeWhile_concat_pos _ _ _ (decide_eq_true hc)

/-- A line feed ends all lines before it. -/
@[simp] theorem earlierLines_newline (cs : List Char) :
    earlierLines (cs ++ ['\n']) = cs ++ ['\n'] :=
  List.rdropWhile_concat_neg _ _ _ (by decide)

/-- All other characters belong to no earlier line. -/
theorem earlierLines_concat {c : Char} (hc : c ≠ '\n') (cs : List Char) :
    earlierLines (cs ++ [c]) = earlierLines cs :=
  List.rdropWhile_concat_pos _ _ _ (decide_eq_true hc)

/-- All line feeds are in earlier lines. -/
theorem count_earlierLines (cs : List Char) : (earlierLines cs).count '\n' = cs.count '\n' := by
  induction cs using List.reverseRecOn with
  | nil => rfl
  | append_singleton cs c ih =>
    by_cases hc : c = '\n'
    · rw [hc, earlierLines_newline]
    · rw [earlierLines_concat hc, ih, List.count_append, List.count_singleton]
      simp [hc]

/-- The last line has no line feed. -/
theorem ne_newline_of_mem_lastLine {cs : List Char} {c : Char} (h : c ∈ lastLine cs) :
    c ≠ '\n' := by
  have himp : decide (c ≠ '\n') = true :=
    List.mem_rtakeWhile_imp (p := fun c => decide (c ≠ '\n')) h
  exact of_decide_eq_true himp

/-- Earlier lines and the last line are all of the text. -/
theorem earlierLines_append_lastLine (cs : List Char) : earlierLines cs ++ lastLine cs = cs :=
  List.rdropWhile_append_rtakeWhile

/-- Earlier lines end with a line feed. -/
theorem getLast?_earlierLines (cs : List Char) : ∀ c ∈ (earlierLines cs).getLast?, c = '\n' := by
  induction cs using List.reverseRecOn with
  | nil =>
    intro c hc
    cases hc
  | append_singleton cs c ih =>
    by_cases hc : c = '\n'
    · subst hc
      intro d hd
      rw [earlierLines_newline, List.getLast?_concat] at hd
      exact (Option.some.inj hd).symm
    · rwa [earlierLines_concat hc]

/-- What stands before the first line feed of a text. -/
def firstLine (cs : List Char) : List Char := cs.takeWhile fun c => decide (c ≠ '\n')

/-- The first line has no line feed. -/
theorem ne_newline_of_mem_firstLine {cs : List Char} {c : Char} (h : c ∈ firstLine cs) :
    c ≠ '\n' := by
  have himp : decide (c ≠ '\n') = true :=
    List.mem_takeWhile_imp (p := fun c => decide (c ≠ '\n')) h
  exact of_decide_eq_true himp

/-! ### Lines of display -/

private theorem lines_end {c : Char} (hc : isLineEnd c = true) {cs : List Char}
    (h : c = '\r' → cs.head? ≠ some '\n') : lines (c :: cs) = [] :: lines cs := by
  rw [lines]
  · rw [if_pos hc]
  · rintro ds rfl rfl
    exact h rfl rfl

private theorem lines_cons {c : Char} (hc : isLineEnd c = false) (cs : List Char) :
    lines (c :: cs) = consFirst c (lines cs) := by
  rw [lines]
  · rw [hc, if_neg Bool.false_ne_true]
  · rintro ds rfl
    cases hc

private theorem consFirst_append (c : Char) {ls : List (List Char)} (h : ls ≠ [])
    (ms : List (List Char)) : consFirst c (ls ++ ms) = consFirst c ls ++ ms := by
  cases ls with
  | nil => exact (h rfl).elim
  | cons l ls => rfl

private theorem length_consFirst (c : Char) (ls : List (List Char)) :
    (consFirst c ls).length = max 1 ls.length := by
  cases ls with
  | nil => rfl
  | cons l ls =>
    rw [consFirst, List.length_cons, List.length_cons]
    omega

private theorem count_le_length_lines (cs : List Char) :
    cs.count '\n' ≤ (lines cs).length ∧ (cs ≠ [] → 0 < (lines cs).length) := by
  have hend : isLineEnd '\n' = true := by decide
  fun_induction lines cs with
  | case1 => simp
  | case2 cs ih => simpa using ih.1
  | case3 c cs _ hc ih =>
    have hcount : (c :: cs).count '\n' ≤ cs.count '\n' + 1 := by
      rw [List.count_cons]
      split <;> omega
    refine ⟨hcount.trans ?_, fun _ => ?_⟩ <;> simp [ih.1]
  | case4 c cs _ hc ih =>
    have hne : c ≠ '\n' := by
      rintro rfl
      exact hc hend
    rw [List.count_cons_of_ne hne, length_consFirst]
    omega

private theorem lines_append_newline (cs rest : List Char) :
    lines (cs ++ '\n' :: rest) = lines (cs ++ ['\n']) ++ lines rest := by
  have hbreak (rest : List Char) : lines ('\n' :: rest) = [] :: lines rest :=
    lines_end (by decide) fun h => by cases h
  induction cs using lines.induct with
  | case1 =>
    rw [List.nil_append, List.nil_append, hbreak, hbreak]
    rfl
  | case2 cs ih => simp only [List.cons_append, lines, ih]
  | case3 c cs hpair hc ih =>
    by_cases hreturn : c = '\r' ∧ cs = []
    · obtain ⟨rfl, rfl⟩ := hreturn
      simp only [List.cons_append, List.nil_append, lines]
    · have hhead (more : List Char) : c = '\r' → (cs ++ '\n' :: more).head? ≠ some '\n' := by
        intro hr
        cases cs with
        | nil => exact (hreturn ⟨hr, rfl⟩).elim
        | cons d cs =>
          intro hd
          exact hpair cs hr (by rw [Option.some.inj hd])
      rw [List.cons_append, List.cons_append, lines_end hc (hhead rest), lines_end hc (hhead []),
        ih, List.cons_append]
  | case4 c cs _ hc ih =>
    rw [Bool.not_eq_true] at hc
    have hne : lines (cs ++ ['\n']) ≠ [] :=
      List.ne_nil_of_length_pos ((count_le_length_lines _).2 (by simp))
    rw [List.cons_append, List.cons_append, lines_cons hc, lines_cons hc, ih,
      consFirst_append c hne]

/-- The lines of display of a text that begins with `front` are those up to the last line feed in
`front`, and those behind it. -/
theorem lines_append (front rest : List Char) :
    lines (front ++ rest) = lines (earlierLines front) ++ lines (lastLine front ++ rest) := by
  induction front using List.reverseRecOn generalizing rest with
  | nil => rfl
  | append_singleton front c ih =>
    by_cases hc : c = '\n'
    · rw [hc, earlierLines_newline, lastLine_newline, List.nil_append, ← List.append_cons,
        lines_append_newline]
    · rw [earlierLines_concat hc, lastLine_concat hc, ← List.append_cons, ← List.append_cons, ih]

/-- Where a character stands there is a line of display, however lines end before it. -/
theorem count_lt_length_lines (front : List Char) (c : Char) (rest : List Char) :
    front.count '\n' < (lines (front ++ c :: rest)).length := by
  have hearlier := (count_le_length_lines (earlierLines front)).1
  have hlast := (count_le_length_lines (lastLine front ++ c :: rest)).2 (by simp)
  rw [count_earlierLines] at hearlier
  rw [lines_append, List.length_append]
  omega

/-! ### Where both agree -/

/-- Every line of display of the text ends at a line feed, alone or after a carriage return. -/
def EndsAtFeeds (cs : List Char) : Prop :=
  ∀ (pre : List Char) (c : Char) (post : List Char), cs = pre ++ c :: post → isLineEnd c = true →
    c = '\n' ∨ c = '\r' ∧ post.head? = some '\n'

namespace EndsAtFeeds

private theorem tail {c : Char} {cs : List Char} (h : EndsAtFeeds (c :: cs)) : EndsAtFeeds cs :=
  fun pre d post hcs => h (c :: pre) d post (congrArg (c :: ·) hcs)

private theorem length_lines {cs : List Char} (hcs : EndsAtFeeds cs)
    (hlast : ∀ c ∈ cs.getLast?, c = '\n') : (lines cs).length = cs.count '\n' := by
  have htail {c : Char} {cs : List Char} (hlast : ∀ d ∈ (c :: cs).getLast?, d = '\n') :
      ∀ d ∈ cs.getLast?, d = '\n' := by
    intro d hd
    cases cs with
    | nil => cases hd
    | cons e cs => exact hlast d (by rwa [List.getLast?_cons_cons])
  fun_induction lines cs with
  | case1 => rfl
  | case2 cs ih =>
    rw [List.length_cons, ih hcs.tail.tail (htail (htail hlast))]
    simp
  | case3 c cs hpair hc ih =>
    have hbreak : c = '\n' := by
      rcases hcs [] c cs rfl hc with hbreak | ⟨hr, hhead⟩
      · exact hbreak
      · obtain ⟨ds, rfl⟩ := List.head?_eq_some_iff.1 hhead
        exact (hpair ds hr rfl).elim
    rw [List.length_cons, ih hcs.tail (htail hlast), hbreak, List.count_cons_self]
  | case4 c cs _ hc ih =>
    have hne : c ≠ '\n' := by
      rintro rfl
      exact hc (by decide)
    have hcs' : cs ≠ [] := by
      rintro rfl
      exact hne (hlast c rfl)
    have hpos := (count_le_length_lines cs).2 hcs'
    rw [List.count_cons_of_ne hne, length_consFirst, ← ih hcs.tail (htail hlast)]
    omega

private theorem earlierLines {cs : List Char} (h : EndsAtFeeds cs) :
    EndsAtFeeds (earlierLines cs) := by
  intro pre c post hcs hc
  cases post with
  | nil =>
    have hlast := getLast?_earlierLines cs
    rw [hcs, List.getLast?_concat] at hlast
    exact .inl (hlast c rfl)
  | cons d post =>
    refine h pre c (d :: post ++ lastLine cs) ?_ hc
    rw [← List.cons_append, ← List.append_assoc, ← hcs, earlierLines_append_lastLine]

private theorem isLineEnd_of_mem_lastLine {cs : List Char} (h : EndsAtFeeds cs) {c : Char}
    (hc : c ∈ lastLine cs) : isLineEnd c = false := by
  rw [← Bool.not_eq_true]
  intro hend
  obtain ⟨pre, post, hline⟩ := List.append_of_mem hc
  have hcs : cs = Text.earlierLines cs ++ pre ++ c :: post := by
    rw [List.append_assoc, ← hline, earlierLines_append_lastLine]
  rcases h _ c post hcs hend with hbreak | ⟨-, hhead⟩
  · exact ne_newline_of_mem_lastLine hc hbreak
  · obtain ⟨rest, rfl⟩ := List.head?_eq_some_iff.1 hhead
    have hmem : '\n' ∈ lastLine cs := by
      rw [hline]
      simp
    exact ne_newline_of_mem_lastLine hmem rfl

end EndsAtFeeds

private theorem head?_lines {line : List Char} (hne : line ≠ [])
    (hline : ∀ c ∈ line, isLineEnd c = false) {rest : List Char}
    (hrest : ∀ c ∈ rest.head?, c = '\n') : (lines (line ++ rest)).head? = some line := by
  cases rest with
  | nil =>
    rw [List.append_nil, lines_of_forall hne hline]
    rfl
  | cons c rest =>
    obtain rfl := hrest c rfl
    have hfirst (line : List Char) (hline : ∀ c ∈ line, isLineEnd c = false) :
        lines (line ++ '\n' :: rest) = line :: lines rest := by
      induction line with
      | nil => exact lines_append_newline [] rest
      | cons c line ih =>
        obtain ⟨hc, hline⟩ := List.forall_mem_cons.1 hline
        rw [List.cons_append, lines_cons hc, ih hline]
        rfl
    rw [hfirst line hline]
    rfl

/-- Where lines of display end at line feeds, a position is on the line of display with its
number. -/
theorem getElem?_lines {front rest : List Char} {c : Char} (hfront : EndsAtFeeds front)
    (hrest : ∀ d ∈ c :: firstLine rest, isLineEnd d = false) :
    (lines (front ++ c :: rest))[front.count '\n']? =
      some (lastLine front ++ c :: firstLine rest) := by
  have hcount := hfront.earlierLines.length_lines (getLast?_earlierLines front)
  rw [count_earlierLines] at hcount
  have hline : ∀ d ∈ lastLine front ++ c :: firstLine rest, isLineEnd d = false := fun d hd =>
    (List.mem_append.1 hd).elim hfront.isLineEnd_of_mem_lastLine (hrest d)
  have hnext : ∀ d ∈ (rest.dropWhile fun d => decide (d ≠ '\n')).head?, d = '\n' := by
    intro d hd
    have hnot := List.head?_dropWhile_not (fun d => decide (d ≠ '\n')) rest
    rw [hd] at hnot
    simpa using hnot
  have hfirst := head?_lines (by simp) hline hnext
  rw [List.append_assoc, List.cons_append, firstLine, List.takeWhile_append_dropWhile] at hfirst
  rw [lines_append, ← hcount, List.getElem?_append_right (Nat.le_refl _), Nat.sub_self,
    ← List.head?_eq_getElem?, hfirst, firstLine]

end Lox.Text
