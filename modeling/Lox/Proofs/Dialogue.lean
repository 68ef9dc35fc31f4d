import Mathlib.Data.List.Induction
import Lox.Proofs.Balance
import Lox.Shell

/-!
# Dialogues

A shell puts the lines that it is given together to units and runs each unit when it is complete. No
line is lost or run twice, whatever commands come in between and however the units end: the lines of
the units that were run, and then those of the unit that waits for more, are the lines that were
entered.
-/

namespace Lox

namespace Entry

/-! ### Lines and brackets -/

/-- The characters of a text outside of quotation marks; `quoted` tells whether it begins within
them. -/
def unquoted (quoted : Bool) : List Char → List Char
  | [] => []
  | c :: cs =>
    if c = '"' then unquoted (!quoted) cs
    else if quoted then unquoted quoted cs
    else c :: unquoted quoted cs

/-- How many parentheses and braces a text opens. -/
def opened (text : List Char) : Nat := text.countP fun c => c = '(' || c = '\x7b'

/-- How many parentheses and braces a text closes. -/
def closed (text : List Char) : Nat := text.countP fun c => c = ')' || c = '\x7d'

/-- A text opens more than it closes outside of quotation marks. -/
def Unbalanced (text : List Char) : Prop :=
  closed (unquoted false text) < opened (unquoted false text)

theorem openCount_eq (quoted : Bool) (text : List Char) :
    openCount quoted text =
      (opened (unquoted quoted text) : Int) - closed (unquoted quoted text) := by
  induction text generalizing quoted with
  | nil => rfl
  | cons c cs ih =>
    by_cases hquote : c = '"'
    · simp [openCount, unquoted, hquote, ih]
    cases quoted with
    | true => simp [openCount, unquoted, hquote, ih]
    | false =>
      simp only [openCount, unquoted, hquote, Bool.false_eq_true, if_false, ih, opened, closed,
        List.countP_cons]
      by_cases hopen : (c = '(' || c = '\x7b') = true
      · have hclose : (c = ')' || c = '\x7d') = false := by
          rw [Bool.or_eq_true, decide_eq_true_eq, decide_eq_true_eq] at hopen
          rcases hopen with rfl | rfl <;> decide
        simp only [hopen, hclose, Bool.false_eq_true, if_true, if_false]
        omega
      · cases hclose : (c = ')' || c = '\x7d') <;>
          simp only [hopen, Bool.false_eq_true, if_true, if_false] <;> omega

/-- A unit goes on in the next line just if it opens more than it closes. -/
theorem isOpen_iff {text : List Char} : isOpen text = true ↔ Unbalanced text := by
  rw [isOpen, decide_eq_true_eq, openCount_eq, Unbalanced]
  omega

/-- Nothing is open in an empty text. -/
theorem Unbalanced.ne_nil {text : List Char} (h : Unbalanced text) : text ≠ [] := by
  intro hnil
  subst hnil
  exact Nat.lt_irrefl 0 h

/-- Lines as one text, with line feeds between them. -/
def joined (lines : List (List Char)) : List Char := List.intercalate ['\n'] lines

theorem joined_concat {lines : List (List Char)} (h : lines ≠ []) (line : List Char) :
    joined (lines ++ [line]) = joined lines ++ '\n' :: line := by
  induction lines with
  | nil => exact (h rfl).elim
  | cons first lines ih =>
    cases lines with
    | nil => simp [joined, List.intercalate]
    | cons second lines =>
      have hrest := ih (List.cons_ne_nil _ _)
      simp only [joined, List.intercalate] at hrest ⊢
      simpa using hrest

/-! ### Units of lines -/

/-- Lines that a unit begins with and that do not complete it: after each of them more is open than
closed. -/
def Waiting (lines : List (List Char)) : Prop :=
  ∀ part, part <+: lines → part ≠ [] → Unbalanced (joined part)

/-- The lines of a complete unit: the last one is the first that closes all. -/
def Complete (lines : List (List Char)) : Prop :=
  ∃ front line, lines = front ++ [line] ∧ Waiting front ∧ ¬Unbalanced (joined lines)

/-- Entered lines as units: the complete ones, and the lines that wait for more. -/
structure Units where
  complete : List (List (List Char))
  waiting : List (List Char)

namespace Units

/-- The units of no lines. -/
def none : Units := ⟨[], []⟩

/-- All lines in their order. -/
def lines (u : Units) : List (List Char) := u.complete.flatten ++ u.waiting

/-- The lines of the unit that the last line belongs to. -/
def latest (u : Units) : List (List Char) :=
  if u.waiting = [] then u.complete.getLastD [] else u.waiting

/-- Each unit ends where it is complete for the first time. -/
structure WF (u : Units) : Prop where
  complete : ∀ unit ∈ u.complete, Complete unit
  waiting : Waiting u.waiting

/-- Complete units as texts, each with the number of its first line, if they begin in the line `n`.
-/
def numbered (n : Nat) : List (List (List Char)) → List (String × Nat)
  | [] => []
  | unit :: units => (String.ofList (joined unit), n) :: numbered (n + unit.length) units

/-- The number of a unit is that of the line after all lines before it. -/
theorem numbered_concat (n : Nat) (units : List (List (List Char))) (unit : List (List Char)) :
    numbered n (units ++ [unit]) =
      numbered n units ++ [(String.ofList (joined unit), n + units.flatten.length)] := by
  induction units generalizing n with
  | nil => rfl
  | cons first units ih => simp [numbered, ih, Nat.add_assoc]

/-- Whether there is more than white space in a unit. -/
def hasText (unit : String × Nat) : Bool := !(Text.trim unit.1.toList).isEmpty

/-- The complete units that are not blank. -/
def runs (u : Units) : List (String × Nat) := (numbered 1 u.complete).filter hasText

/-- The units with one more line. -/
def add (u : Units) (line : List Char) : Units :=
  let lines := u.waiting ++ [line]
  if isOpen (joined lines) then ⟨u.complete, lines⟩ else ⟨u.complete ++ [lines], []⟩

/-- No lines form no units. -/
theorem wf_none : none.WF := by
  refine ⟨fun unit hunit => ?_, fun part hpart hne => (hne (List.prefix_nil.1 hpart)).elim⟩
  cases hunit

/-- A line that leaves its unit open. -/
theorem add_of_open {u : Units} {line : List Char}
    (h : isOpen (joined (u.waiting ++ [line])) = true) :
    u.add line = ⟨u.complete, u.waiting ++ [line]⟩ := by
  simp [add, h]

/-- A line that leaves nothing open. -/
theorem add_of_closed {u : Units} {line : List Char}
    (h : isOpen (joined (u.waiting ++ [line])) = false) :
    u.add line = ⟨u.complete ++ [u.waiting ++ [line]], []⟩ := by
  simp [add, h]

/-- Each line is put to the units of those before it. -/
theorem lines_add (u : Units) (line : List Char) : (u.add line).lines = u.lines ++ [line] := by
  cases h : isOpen (joined (u.waiting ++ [line])) with
  | true => simp [add_of_open h, lines]
  | false => simp [add_of_closed h, lines]

/-- One more line completes the unit that waits for it, or leaves it waiting. -/
theorem WF.add {u : Units} (h : u.WF) (line : List Char) : (u.add line).WF := by
  cases hopen : isOpen (joined (u.waiting ++ [line])) with
  | true =>
    rw [add_of_open hopen]
    refine ⟨h.complete, fun part hpart hne => ?_⟩
    rcases List.prefix_concat_iff.1 hpart with rfl | hpart
    · exact isOpen_iff.1 hopen
    · exact h.waiting part hpart hne
  | false =>
    have hclosed : ¬Unbalanced (joined (u.waiting ++ [line])) := by
      rw [← isOpen_iff, hopen]
      exact Bool.false_ne_true
    rw [add_of_closed hopen]
    refine ⟨fun unit hunit => ?_, fun part hpart hne => (hne (List.prefix_nil.1 hpart)).elim⟩
    rcases List.mem_append.1 hunit with hunit | hunit
    · exact h.complete unit hunit
    · rw [List.mem_singleton.1 hunit]
      exact ⟨u.waiting, line, rfl, h.waiting, hclosed⟩

/-- What waits for more is not empty. -/
theorem WF.joined_eq_nil_iff {u : Units} (h : u.WF) : joined u.waiting = [] ↔ u.waiting = [] := by
  constructor
  · intro hnil
    by_cases hwaiting : u.waiting = []
    · exact hwaiting
    · exact ((h.waiting u.waiting (List.prefix_refl _) hwaiting).ne_nil hnil).elim
  · intro hnil
    rw [hnil]
    rfl

/-- A unit waits for more lines just if the last line has left more open in it than closed. -/
theorem WF.waiting_ne_nil_iff {u : Units} (h : u.WF) :
    u.waiting ≠ [] ↔ Unbalanced (joined u.latest) := by
  by_cases hnil : u.waiting = []
  · simp only [latest, hnil, if_true, ne_eq, not_true_eq_false, false_iff]
    cases hlast : u.complete.getLast? with
    | none =>
      rw [List.getLastD_eq_getLast?, hlast]
      exact fun hbad => hbad.ne_nil rfl
    | some unit =>
      rw [List.getLastD_eq_getLast?, hlast]
      obtain ⟨-, -, -, -, hclosed⟩ := h.complete unit (List.mem_of_getLast? hlast)
      exact hclosed
  · simp only [latest, hnil, if_false, ne_eq, not_false_eq_true, true_iff]
    exact h.waiting u.waiting (List.prefix_refl _) hnil

end Units

end Entry

/-! ### The session of a shell -/

/-- No failure ends a unit as if it were done, or asks to quit. -/
theorem Failure.ending_ne (style : Text.Style) (failure : Failure) :
    failure.ending style ≠ .finished ∧ failure.ending style ≠ .quit := by
  cases failure with
  | syntaxError => simp [Failure.ending]
  | defect d => cases d <;> simp [Failure.ending, Defect.notice?]
  | stopped stop => cases stop <;> simp [Failure.ending]

/-- Reporting an error that does not end the program forgets which line was run. -/
theorem Handler.marks_close (style : Text.Style) {h : Handler} (hfatal : h.fatal = false)
    {path : String} {mark : Mark} (hmarks : h.marks = [(path, mark)]) (failure : Failure) :
    (h.close style (failure.ending style)).2.1 = ⟨false, [(path, .none)]⟩ := by
  obtain ⟨hfinished, hquit⟩ := failure.ending_ne style
  obtain ⟨fatal, marks⟩ := h
  cases hfatal
  cases hmarks
  cases hending : failure.ending style <;> simp_all [Handler.close, Handler.report, Handler.reset]

namespace Session

/-- The session after a unit, which begins in a line with this number, was run and the error that it
may have ended in was reported. -/
def after (s : Session) (unit : String × Nat) : Session :=
  let ran := s.runUnit unit.1 unit.2
  match ran.result with
  | .ok _ => ran.session
  | .error ending =>
    { ran.session with handler := (ran.session.handler.close ran.session.style ending).2.1 }

/-- A session for entered lines between two units: only the global scope is open, and no line is
marked as being run. -/
structure AtRest (s : Session) : Prop where
  path : s.path = promptPath
  lenient : s.handler.fatal = false
  marks : s.handler.marks = [(promptPath, .none)]
  stack : s.env.stack = [Env.global]

/-- A session begins at rest. -/
theorem atRest_interactive (flags : Flags) (style : Text.Style) (limits : Limits) :
    (interactive flags style limits).AtRest := ⟨rfl, rfl, rfl, rfl⟩

/-- Running a unit that was entered changes neither the stack nor what the handler keeps; if it
fails, then with the ending of a failure. -/
theorem exec_promptPath {s : Session} (hpath : s.path = promptPath) (line source : String) :
    (s.exec line source).session.path = promptPath ∧
      (s.exec line source).session.handler = s.handler ∧
      (s.exec line source).session.style = s.style ∧
      (s.exec line source).session.env.stack = s.env.stack ∧
      ∀ ending, (s.exec line source).result = .error ending →
        ∃ failure : Failure, ending = failure.ending s.style := by
  have hstack := (Source.balanced_exec s.limits ⟨s.flags, source⟩
    ⟨s.env, "", if s.flags.tracing then #[line] else #[]⟩).1
  simp only [Session.exec]
  split
  · next hrun =>
    rw [hrun] at hstack
    exact ⟨hpath, rfl, rfl, hstack, fun _ h => by cases h⟩
  · next hrun =>
    rw [hrun] at hstack
    exact ⟨hpath, rfl, rfl, hstack, fun _ h => by cases h⟩
  · next failure _ hrun =>
    rw [hrun] at hstack
    refine ⟨hpath, ?_, rfl, hstack, fun ending h => ⟨failure, by cases h; rfl⟩⟩
    cases failure <;> simp [hpath]

/-- However a unit ends, the session is at rest after it. -/
theorem AtRest.after {s : Session} (h : s.AtRest) (unit : String × Nat) :
    (s.after unit).AtRest := by
  have hmarks : (s.handler.registerLine s.path ⟨some unit.1, some unit.2⟩).marks =
      [(promptPath, ⟨some unit.1, some unit.2⟩)] := by
    simp [Handler.registerLine, h.marks, h.path, Handler.setMark]
  have hexec := exec_promptPath
    (s := { s with handler := s.handler.registerLine s.path ⟨some unit.1, some unit.2⟩ }) h.path
    (s.path ++ ":" ++ toString unit.2 ++ ": running unit") unit.1
  simp only [Session.after, runUnit]
  generalize Session.exec _ _ _ = ran at hexec
  obtain ⟨hpath, hhandler, hstyle, hstack, hfailure⟩ := hexec
  have hran : ran.session.handler.fatal = false ∧
      ran.session.handler.marks = [(promptPath, ⟨some unit.1, some unit.2⟩)] := by
    rw [hhandler]
    exact ⟨h.lenient, hmarks⟩
  cases hresult : ran.result with
  | ok flow =>
    refine ⟨hpath, hran.1, ?_, hstack.trans h.stack⟩
    simp [Handler.removeLine, Handler.registerFile, hran.2, h.path, Handler.setMark]
  | error ending =>
    obtain ⟨failure, rfl⟩ := hfailure ending hresult
    simp only [hresult, hstyle]
    rw [Handler.marks_close _ hran.1 hran.2]
    exact ⟨hpath, rfl, rfl, hstack.trans h.stack⟩

/-- The session is at rest after any units. -/
theorem AtRest.foldl_after {s : Session} (h : s.AtRest) (units : List (String × Nat)) :
    (units.foldl Session.after s).AtRest := by
  induction units generalizing s with
  | nil => exact h
  | cons unit units ih => exact ih (h.after unit)

end Session

/-! ### The shell -/

namespace Shell

open Entry

/-- The source text that a line adds to a unit, if the line is no command. -/
def source? (line : String) : Option String :=
  match request line with
  | .source text => some text
  | _ => none

/-- The lines of source text among lines, without comments. -/
def entered (lines : List String) : List (List Char) :=
  lines.filterMap fun line => (source? line).map fun text => clean text.toList

/-- The shell after lines that are given to it one after the other, whatever becomes of them. -/
def feedAll (sh : Shell) (lines : List String) : Shell :=
  lines.foldl (fun sh line => (sh.feed line).2) sh

@[simp] theorem feedAll_concat (sh : Shell) (lines : List String) (line : String) :
    sh.feedAll (lines ++ [line]) = ((sh.feedAll lines).feed line).2 := by
  simp [feedAll]

@[simp] theorem entered_concat (lines : List String) (line : String) :
    entered (lines ++ [line]) =
      entered lines ++ ((source? line).map fun text => clean text.toList).toList := by
  cases h : source? line <;> simp [entered, h]

/-- The unit that a line hands to the session, with the number of its first line. -/
def handed? (sh : Shell) (line : String) : Option (String × Nat) :=
  match source? line with
  | some text => (sh.take text).1.map fun unit => (unit, (sh.take text).2.startLine)
  | none => none

/-- The units that lines hand to the session, in their order. -/
def handedAll (sh : Shell) : List String → List (String × Nat)
  | [] => []
  | line :: lines => (sh.handed? line).toList ++ handedAll (sh.feed line).2 lines

/-- Running a unit changes the session, and nothing else of the shell. -/
theorem runUnit_snd (sh : Shell) (unit : String) :
    (sh.runUnit unit).2 = { sh with session := sh.session.after (unit, sh.startLine) } := by
  simp only [runUnit, Session.after]
  cases (sh.session.runUnit unit sh.startLine).result <;> rfl

/-- Putting a line to a unit leaves the session alone. -/
theorem session_take (sh : Shell) (text : String) : (sh.take text).2.session = sh.session := by
  simp only [take]
  split <;> rfl

/-- A line that is no command is put to a unit; the unit is run if the line hands it over. -/
theorem feed_source {line text : String} (sh : Shell) (h : source? line = some text) :
    (sh.feed line).2 =
      { (sh.take text).2 with
        session := (sh.handed? line).toList.foldl Session.after sh.session } := by
  have hrequest : request line = .source text := by
    unfold source? at h
    split at h
    · cases h
      assumption
    · cases h
  have hsession := sh.session_take text
  simp only [feed, hrequest, feedSource, handed?, h]
  generalize sh.take text = taken at hsession
  obtain ⟨unit?, next⟩ := taken
  cases unit? with
  | none => simp [← hsession]
  | some unit => simp [runUnit_snd, ← hsession]

/-- A command changes nothing and hands nothing over. -/
theorem feed_command {line : String} (sh : Shell) (h : source? line = none) :
    (sh.feed line).2 = sh ∧ sh.handed? line = none := by
  refine ⟨?_, by simp only [handed?, h]⟩
  unfold source? at h
  unfold feed
  cases hrequest : request line <;> simp_all

/-- The session changes by the unit that a line hands over, and by nothing else. -/
theorem session_feed (sh : Shell) (line : String) :
    (sh.feed line).2.session = (sh.handed? line).toList.foldl Session.after sh.session := by
  cases hline : source? line with
  | none =>
    obtain ⟨hfeed, hhanded⟩ := sh.feed_command hline
    rw [hfeed, hhanded]
    rfl
  | some text => rw [sh.feed_source hline]

/-- The session changes by the units that lines hand over, one after the other. -/
theorem session_feedAll (sh : Shell) (lines : List String) :
    (sh.feedAll lines).session = (sh.handedAll lines).foldl Session.after sh.session := by
  induction lines generalizing sh with
  | nil => rfl
  | cons line lines ih =>
    rw [handedAll, List.foldl_append, ← session_feed]
    exact ih _

/-- The last line hands over what it does in the shell after the others. -/
theorem handedAll_concat (sh : Shell) (lines : List String) (line : String) :
    sh.handedAll (lines ++ [line]) =
      sh.handedAll lines ++ ((sh.feedAll lines).handed? line).toList := by
  induction lines generalizing sh with
  | nil => simp [handedAll, feedAll]
  | cons first lines ih =>
    simp only [List.cons_append, handedAll, ih, List.append_assoc]
    rfl

/-! ### What a shell keeps -/

/-- A line that leaves its unit open makes it wait for the next one. -/
theorem take_of_open {sh : Shell} {text : String}
    (h : isOpen (extend sh.pending.toList text.toList) = true) :
    sh.take text = (none, ⟨sh.session, String.ofList (extend sh.pending.toList text.toList),
      if sh.pending.isEmpty then sh.lineNumber + 1 else sh.startLine, sh.lineNumber + 1,
      nextPrompt⟩) := by
  simp [take, preprocess, h]

/-- A line that leaves nothing open ends its unit, which is handed over if it is not blank. -/
theorem take_of_closed {sh : Shell} {text : String}
    (h : isOpen (extend sh.pending.toList text.toList) = false) :
    sh.take text =
      (if (Text.trim (extend sh.pending.toList text.toList)).isEmpty then none
        else some (String.ofList (extend sh.pending.toList text.toList)),
      ⟨sh.session, "", if sh.pending.isEmpty then sh.lineNumber + 1 else sh.startLine,
        sh.lineNumber + 1, firstPrompt⟩) := by
  simp [take, preprocess, h]

/-- A shell keeps the text of the unit that waits for more lines, the number of its first line, the
number of all lines, and the prompt that goes with it. -/
structure Keeps (sh : Shell) (u : Units) : Prop where
  pending : sh.pending.toList = joined u.waiting
  startLine : u.waiting ≠ [] → sh.startLine = 1 + u.complete.flatten.length
  lineNumber : sh.lineNumber = u.lines.length
  prompt : sh.prompt = if u.waiting = [] then firstPrompt else nextPrompt

namespace Keeps

variable {sh : Shell} {u : Units}

/-- A new shell keeps nothing. -/
theorem start (session : Session) : (Shell.start session).Keeps .none :=
  ⟨rfl, fun hne => (hne rfl).elim, rfl, rfl⟩

/-- What is kept does not depend on the session. -/
theorem withSession (h : sh.Keeps u) (session : Session) : { sh with session }.Keeps u :=
  ⟨h.pending, h.startLine, h.lineNumber, h.prompt⟩

/-- A shell waits for more just if it keeps some text. -/
theorem pending_isEmpty (h : sh.Keeps u) (hu : u.WF) :
    sh.pending.isEmpty = true ↔ u.waiting = [] := by
  rw [← hu.joined_eq_nil_iff, ← h.pending]
  simp

/-- The text that a shell keeps grows by a line. -/
theorem extend_eq (h : sh.Keeps u) (hu : u.WF) (text : List Char) :
    extend sh.pending.toList text = joined (u.waiting ++ [clean text]) := by
  rw [extend, h.pending]
  by_cases hnil : u.waiting = []
  · simp [hnil, joined, List.intercalate]
  · simp [hu.joined_eq_nil_iff, hnil, joined_concat]

/-- The number of the first line of the unit that one more line belongs to. -/
theorem startLine_eq (h : sh.Keeps u) (hu : u.WF) :
    (if sh.pending.isEmpty then sh.lineNumber + 1 else sh.startLine) =
      1 + u.complete.flatten.length := by
  by_cases hnil : u.waiting = []
  · rw [if_pos ((h.pending_isEmpty hu).2 hnil), h.lineNumber, Units.lines, hnil]
    simp [Nat.add_comm]
  · rw [if_neg fun hempty => hnil ((h.pending_isEmpty hu).1 hempty), h.startLine hnil]

/-- One more line of source text: the shell keeps the unit that waits then, and hands over the one
that is complete, unless it is blank. -/
theorem take (h : sh.Keeps u) (hu : u.WF) {line text : String} (hline : source? line = some text) :
    (sh.take text).2.Keeps (u.add (clean text.toList)) ∧
      (u.add (clean text.toList)).runs = u.runs ++ (sh.handed? line).toList := by
  have hextend := h.extend_eq hu text.toList
  have hstart := h.startLine_eq hu
  have hnumber : sh.lineNumber + 1 = (u.add (clean text.toList)).lines.length := by
    rw [Units.lines_add, h.lineNumber, List.length_append]
    rfl
  simp only [handed?, hline]
  cases hopen : isOpen (joined (u.waiting ++ [clean text.toList])) with
  | true =>
    rw [take_of_open (hextend ▸ hopen)]
    rw [Units.add_of_open hopen] at hnumber ⊢
    refine ⟨⟨?_, fun _ => hstart, hnumber, by simp⟩, by simp [Units.runs]⟩
    rw [String.toList_ofList, hextend]
  | false =>
    rw [take_of_closed (hextend ▸ hopen)]
    rw [Units.add_of_closed hopen] at hnumber ⊢
    refine ⟨⟨rfl, fun hne => (hne rfl).elim, hnumber, rfl⟩, ?_⟩
    rw [Units.runs, Units.numbered_concat, List.filter_append, Units.runs, hextend, hstart]
    by_cases hblank : (Text.trim (joined (u.waiting ++ [clean text.toList]))).isEmpty = true
    · simp [Units.hasText, hblank]
    · simp [Units.hasText, hblank]

end Keeps

/-- A shell that begins with nothing keeps the units that its lines form, and hands them over. -/
theorem exists_units {sh : Shell} (h : sh.Keeps .none) (lines : List String) :
    ∃ u : Units, u.WF ∧ u.lines = entered lines ∧ sh.handedAll lines = u.runs ∧
      (sh.feedAll lines).Keeps u := by
  induction lines using List.reverseRecOn with
  | nil => exact ⟨.none, Units.wf_none, rfl, rfl, h⟩
  | append_singleton lines line ih =>
    obtain ⟨u, hu, hlines, hruns, hkeeps⟩ := ih
    cases hline : source? line with
    | none =>
      obtain ⟨hfeed, hhanded⟩ := (sh.feedAll lines).feed_command hline
      refine ⟨u, hu, ?_, ?_, ?_⟩
      · simp [hline, hlines]
      · simp [handedAll_concat, hruns, hhanded]
      · rwa [feedAll_concat, hfeed]
    | some text =>
      obtain ⟨hnext, hrun⟩ := hkeeps.take hu hline
      refine ⟨u.add (clean text.toList), hu.add _, ?_, ?_, ?_⟩
      · simp [hline, Units.lines_add, hlines]
      · rw [handedAll_concat, hruns, hrun]
      · rw [feedAll_concat, feed_source _ hline]
        exact hnext.withSession _

/-- Whatever lines are given to a shell, and however the units in them end: the lines of source text
form units, each complete with the first line that leaves nothing open. All complete units but the
blank ones were handed to the session, in their order and each with the number of its first line,
and nothing else has changed the session; the shell keeps the text of the unit that waits for more
and shows the prompt for it. Only the global scope is open and no line is marked as being run. -/
theorem dialogue_kept (flags : Flags) (style : Text.Style) (limits : Limits) (lines : List String) :
    let first := start (.interactive flags style limits)
    let sh := first.feedAll lines
    ∃ u : Units, u.WF ∧ u.lines = entered lines ∧
      first.handedAll lines = u.runs ∧
      sh.pending.toList = joined u.waiting ∧
      sh.session = u.runs.foldl Session.after first.session ∧
      sh.session.env.depth = 1 ∧
      sh.session.handler.marks = [(Session.promptPath, .none)] ∧
      sh.lineNumber = (entered lines).length ∧
      (sh.prompt = nextPrompt ↔ sh.pending ≠ "") ∧
      (sh.pending ≠ "" ↔ Unbalanced (joined u.latest)) := by
  intro first sh
  obtain ⟨u, hu, hlines, hruns, hkeeps⟩ := exists_units (Keeps.start _) lines
  have hsession : sh.session = u.runs.foldl Session.after first.session := by
    rw [← hruns]
    exact first.session_feedAll lines
  have hrest : sh.session.AtRest := by
    rw [hsession]
    exact Session.AtRest.foldl_after (Session.atRest_interactive flags style limits) _
  have hwaiting : sh.pending ≠ "" ↔ u.waiting ≠ [] := by
    rw [ne_eq, ← String.isEmpty_iff, hkeeps.pending_isEmpty hu]
  refine ⟨u, hu, hlines, hruns, hkeeps.pending, hsession, ?_, hrest.marks, ?_, ?_, ?_⟩
  · rw [← Env.length_stack, hrest.stack]
    rfl
  · rw [hkeeps.lineNumber, hlines]
  · rw [hwaiting, hkeeps.prompt]
    by_cases hnil : u.waiting = [] <;> simp [hnil, firstPrompt, nextPrompt]
  · rw [hwaiting, hu.waiting_ne_nil_iff]

end Shell

end Lox
