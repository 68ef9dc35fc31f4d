import Lox.Report
import Lox.Proofs.Misfits

/-!
# Excerpts

What a syntax error shows of the source text: a line of display, and in it the character at which
the text goes wrong. Lines of display are counted as if they ended at line feeds alone, so where
they end at nothing else the excerpt is the line that holds the misfit, and the caret stands under
the character. A source text that ends too early is shown at its last token, not behind its last
line.
-/

namespace Lox

open Text

private theorem Text.isBlank_of_isLineEnd {c : Char} (h : isLineEnd c = true) :
    isBlank c = true := by
  have hall : (lineEnds.all fun n =>
      blankRanges.any fun r => decide (r.1 ≤ n) && decide (n ≤ r.2)) = true := by decide
  exact List.all_eq_true.1 hall c.toNat (List.contains_iff_mem.1 h)

private theorem Notice.diagnosis_character (style : Style) (tint : Tint) {n : Notice}
    {before after : List Char} {c : Char} (hsubject : n.subject.toList = before ++ c :: after)
    (hstart : n.start = before.length) (hstop : n.stop = before.length + 1) :
    n.diagnosis style tint =
      "  " ++ String.ofList before ++ style.tinted tint (String.ofList [c]) ++ String.ofList after
        ++ "\n" ++ "  " ++ String.ofList (List.replicate before.length ' ')
        ++ style.tinted tint "^" := by
  have hpointed : n.pointedStop = before.length + 1 := by
    rw [pointedStop, hstart, hstop, Nat.max_self]
  have hbefore : n.range 0 before.length = String.ofList before := by
    rw [range, hsubject, List.take_left' rfl, List.drop_zero]
  have hcharacter : n.range before.length (before.length + 1) = String.ofList [c] := by
    simp [range, hsubject, List.take_append]
  have hafter : n.range (before.length + 1) n.subject.length = String.ofList after := by
    rw [range, ← String.length_toList, List.take_length, hsubject, List.append_cons,
      List.drop_left' (by rw [List.length_append, List.length_singleton])]
  rw [diagnosis, hpointed, hstart, hbefore, hcharacter, hafter]
  simp

/-- A syntax error shows the line of display with the number of the misfit, or of the last token if
the source text ends too early, and points at the column of the misfit or behind the end of the
line. Where up to the misfit's line lines of display end at line feeds, that is the line which holds
the misfit, and the caret stands under its first character. -/
theorem SyntaxError.shows_misfit {source : String} {e : SyntaxError}
    (h : Tree.ofSource source = .error e) :
    ∃ front c rest, source.toList = front ++ c :: rest ∧ Misfit source.toList front ∧
      (lines source.toList)[front.count '\n']? = some e.excerpt.toList ∧
      e.offset = min (lastLine front).length e.excerpt.length ∧
      (EndsAtFeeds front → (∀ d ∈ firstLine rest, isLineEnd d = false) →
        e.excerpt.toList = lastLine front ++ c :: firstLine rest ∧
        e.offset = (lastLine front).length ∧
        ∀ (style : Style) (tint : Tint), (e.notice style).diagnosis style tint =
          "  " ++ String.ofList (lastLine front) ++ style.tinted tint (String.ofList [c])
            ++ String.ofList (firstLine rest) ++ "\n" ++ "  "
            ++ String.ofList (List.replicate (lastLine front).length ' ')
            ++ style.tinted tint "^") := by
  obtain ⟨front, hmisfit, rfl⟩ := Tree.ofSource_eq_error_iff.1 h
  obtain ⟨c, rest, hsource, hc⟩ := hmisfit.exists_cons
  obtain ⟨line, hline, hat⟩ := exists_atPlace source hsource
  have hoffset : (atPlace source (.behind front)).offset =
      min (lastLine front).length line.length := by
    rw [hat, offset]
    simp [Place.behind]
  refine ⟨front, c, rest, hsource, hmisfit, ?_, ?_, fun hfront hrest => ?_⟩
  · rw [hat, String.toList_ofList, hline]
  · rw [hoffset, hat, String.length_ofList]
  · have hend : isLineEnd c = false := by
      rw [← Bool.not_eq_true]
      intro hend
      rw [isBlank_of_isLineEnd hend] at hc
      cases hc
    have hshown := getElem?_lines hfront (List.forall_mem_cons.2 ⟨hend, hrest⟩)
    rw [← hsource, hline] at hshown
    obtain rfl := Option.some.inj hshown
    have hwithin : (atPlace source (.behind front)).offset = (lastLine front).length := by
      rw [hoffset, List.length_append]
      exact Nat.min_eq_left (Nat.le_add_right _ _)
    have hexcerpt : (atPlace source (.behind front)).excerpt.toList =
        lastLine front ++ c :: firstLine rest := by
      rw [hat, String.toList_ofList]
    refine ⟨hexcerpt, hwithin, fun style tint => ?_⟩
    exact Notice.diagnosis_character style tint hexcerpt hwithin (congrArg (· + 1) hwithin)

/-- In the second line a name follows a name, and the caret stands under the second one. -/
theorem SyntaxError.shows_second_name :
    ∃ e, Tree.ofSource "x;\n y z" = .error e ∧
      ∃ front c rest, "x;\n y z".toList = front ++ c :: rest ∧
        e.excerpt.toList = lastLine front ++ c :: firstLine rest ∧
        e.offset = (lastLine front).length := by
  have h : Tree.ofSource "x;\n y z" = .error ⟨" y z", 2, 4⟩ := by
    rw [Tree.ofSource, Scanned.ofString_pieces [(.token .ident, "x".toList),
      (.token .semicolon, ";".toList), (.skipped, "\n ".toList), (.token .ident, "y".toList),
      (.skipped, " ".toList), (.token .ident, "z".toList)] (by decide) (by decide)]
    with_unfolding_all rfl
  refine ⟨_, h, ?_⟩
  obtain ⟨front, c, rest, hsource, -, -, -, hshown⟩ := shows_misfit h
  have hall : ("x;\n y z".toList.all fun d => !isLineEnd d || decide (d = '\n')) = true := by decide
  have hfeeds : ∀ d ∈ front ++ c :: rest, isLineEnd d = true → d = '\n' := by
    intro d hd hend
    rw [← hsource] at hd
    simpa [hend] using List.all_eq_true.1 hall d hd
  have hfront : EndsAtFeeds front := by
    rintro pre d post rfl hd
    exact .inl (hfeeds d (by simp) hd)
  have hrest : ∀ d ∈ firstLine rest, isLineEnd d = false := by
    intro d hd
    rw [← Bool.not_eq_true]
    intro hend
    have hmem := (List.takeWhile_prefix _).subset hd
    have hbreak := hfeeds d (List.mem_append_right _ (List.mem_cons_of_mem c hmem)) hend
    exact ne_newline_of_mem_firstLine hd hbreak
  obtain ⟨hexcerpt, hoffset, -⟩ := hshown hfront hrest
  exact ⟨front, c, rest, hsource, hexcerpt, hoffset⟩

/-- A source text that ends after a name is the beginning of a program; the error points at the
name, not behind it. Where a carriage return ends a line of display but no line of positions, the
error points behind a line of display on which nothing is wrong. -/
theorem SyntaxError.shown_elsewhere :
    (Viable (Scanned.ofString "x").tokens ∧ (Scanned.ofString "x").stop = none ∧
      ∃ e, Tree.ofSource "x" = .error e ∧ e.excerpt = "x" ∧ e.offset = 0) ∧
    ∃ e, Tree.ofSource "x;\ry z" = .error e ∧ e.excerpt = "x;" ∧ e.offset = 2 := by
  have hname : Scanned.ofString "x" = ⟨[⟨.ident, "x", .start⟩], none⟩ := by
    rw [Scanned.ofString_pieces [(.token .ident, "x".toList)] (by decide) (by decide)]
    rfl
  refine ⟨⟨?_, by rw [hname], ⟨"x", 1, 1⟩, ?_, rfl, rfl⟩, ⟨"x;", 1, 6⟩, ?_, rfl, rfl⟩
  · rw [hname]
    refine ⟨[⟨.semicolon, ";", .start⟩], ?_⟩
    exact ⟨_, Tree.ofTokens_eq_ok_iff.1 (by with_unfolding_all rfl)⟩
  · rw [Tree.ofSource, hname]
    with_unfolding_all rfl
  · rw [Tree.ofSource, Scanned.ofString_pieces [(.token .ident, "x".toList),
      (.token .semicolon, ";".toList), (.skipped, "\r".toList), (.token .ident, "y".toList),
      (.skipped, " ".toList), (.token .ident, "z".toList)] (by decide) (by decide)]
    with_unfolding_all rfl

end Lox
