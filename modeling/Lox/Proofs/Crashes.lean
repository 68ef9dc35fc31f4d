import Lox.Proofs.Dialogue
import Lox.Proofs.Safety
import Lox.Proofs.Tracing

/-!
# Crashes

When a unit fails, the shell reports the error and goes on with the next line. There is one sort of
error that is reported and then passed on, so that the shell crashes: an integer that is too long
for a text. It is written in the unit, or the run of the unit has to put it into words.
-/

namespace Lox

/-! ### Failures -/

/-- What is said by a wordless failure, one that is blamed on the text of an integer. -/
def Failure.wordless? : Failure → Option String
  | .defect (.longInteger digits) => some (Decimal.tooLongText digits)
  | .stopped .unwritable => some Decimal.unwritableText
  | _ => none

/-- There are two sorts of wordless failures. -/
theorem Failure.wordless?_eq_some_iff {failure : Failure} {text : String} :
    failure.wordless? = some text ↔
      (∃ digits, failure = .defect (.longInteger digits) ∧ text = Decimal.tooLongText digits) ∨
        failure = .stopped .unwritable ∧ text = Decimal.unwritableText := by
  constructor
  · intro h
    unfold wordless? at h
    split at h <;> simp_all
  · rintro (⟨digits, rfl, rfl⟩ | ⟨rfl, rfl⟩) <;> rfl

/-- Of the failures that source text can lead to, only the wordless ones end as crashes. -/
theorem Failure.Regular.ending {failure : Failure} (h : failure.Regular) (style : Text.Style) :
    (∃ text, failure.wordless? = some text ∧ failure.ending style = .crashed "ValueError" text) ∨
      failure.wordless? = none ∧ (failure.ending style = .tooDeep ∨
        failure.ending style = .interrupted ∨
        ∃ n : Notice, n.internal = false ∧ failure.ending style = .noticed n) := by
  cases failure with
  | syntaxError e => exact .inr ⟨rfl, .inr (.inr ⟨e.notice style, rfl, rfl⟩)⟩
  | defect d =>
    obtain ⟨digits, rfl⟩ := h
    exact .inl ⟨_, rfl, rfl⟩
  | stopped stop =>
    cases stop with
    | fault f => exact .inr ⟨rfl, .inr (.inr ⟨f.notice style, h.internal_notice style, rfl⟩)⟩
    | unwritable => exact .inl ⟨_, rfl, rfl⟩
    | tooDeep => exact .inr ⟨rfl, .inl rfl⟩
    | exhausted => exact .inr ⟨rfl, .inr (.inl rfl)⟩

/-- A handler that does not end the program reports every failure. It passes on the wordless ones,
and blames these on itself. -/
theorem Failure.Regular.close {failure : Failure} (h : failure.Regular) (handler : Handler)
    (hfatal : handler.fatal = false) (style : Text.Style) :
    ∃ n : Notice, n.internal = failure.wordless?.isSome ∧
      handler.close style (failure.ending style) =
        (handler.errorText style n, handler.reset,
          if failure.wordless?.isSome then .propagate else .resume) := by
  have hreport (n : Notice) :
      handler.report style n = (handler.errorText style n, handler.reset, .resume) := by
    simp [Handler.report, hfatal]
  rcases h.ending style with ⟨text, hwords, hending⟩ | ⟨hwords, hending⟩
  · rw [hending, hwords]
    exact ⟨_, rfl, by simp only [Handler.close, hreport]; rfl⟩
  · rw [hwords]
    rcases hending with hending | hending | ⟨n, hn, hending⟩
    · rw [hending]
      exact ⟨_, rfl, hreport _⟩
    · rw [hending]
      exact ⟨_, rfl, hreport _⟩
    · rw [hending]
      exact ⟨n, hn, hreport n⟩

/-! ### Units -/

namespace Source

/-- Why a unit that is run in an environment is wordless, and what is said then: an integer in it
cannot be read, or one of its deeds cannot be put into words. -/
inductive Overlong (limits : Limits) (flags : Flags) (source : String) (e : Env) : String → Prop
  | numeral {t : Tree} {digits : Nat} (parsed : Tree.ofSource source = .ok t)
      (blamed : t.toProgram = .error (.longInteger digits)) :
      Overlong limits flags source e (Decimal.tooLongText digits)
  | deed {d : Doing} (mem : d ∈ deeds limits source e) (stops : d.deed.stops flags.tracing = true) :
      Overlong limits flags source e Decimal.unwritableText

/-- A unit fails for the length of an integer in it just if it is parsed to a tree in which that
integer is found. -/
theorem exec_longInteger_iff {limits : Limits} {flags : Flags} {source : String} {w : World}
    {digits : Nat} :
    (∃ w', exec limits flags source w = .error (.defect (.longInteger digits)) w') ↔
      ∃ t, Tree.ofSource source = .ok t ∧ t.toProgram = .error (.longInteger digits) := by
  rw [exec_eq_opening, program]
  cases Tree.ofSource source with
  | error e => simp
  | ok t =>
    cases ht : t.toProgram with
    | error d => simp [ht]
    | ok p => cases hres : p.exec limits flags.tracing (opening flags source w) <;>
        simp [ht, run, hres]

/-- A unit wants for words just if one of its deeds does that has to be put into words. -/
theorem exec_unwritable_iff {limits : Limits} {flags : Flags} {source : String} {w : World} :
    (∃ w', exec limits flags source w = .error (.stopped .unwritable) w') ↔
      ∃ d ∈ deeds limits source w.env, d.deed.stops flags.tracing = true := by
  rw [exec_eq_opening, deeds, program]
  cases Tree.ofSource source with
  | error e => simp
  | ok t =>
    cases ht : t.toProgram with
    | error d => simp [ht]
    | ok p =>
      have hiff := p.exec_unwritable_iff limits flags.tracing (opening flags source w)
      rw [show (opening flags source w).env = w.env from rfl] at hiff
      simp only [ht]
      rw [← hiff]
      cases hres : p.exec limits flags.tracing (opening flags source w) <;> simp [run, hres]

/-- A unit is wordless just if its run fails like this. -/
theorem overlong_iff {limits : Limits} {flags : Flags} {source text : String} {w : World} :
    Overlong limits flags source w.env text ↔
      ∃ failure w', exec limits flags source w = .error failure w' ∧
        failure.wordless? = some text := by
  constructor
  · rintro (⟨hparsed, hblamed⟩ | ⟨hmem, hstops⟩)
    · obtain ⟨w', hexec⟩ := exec_longInteger_iff.2 ⟨_, hparsed, hblamed⟩
      exact ⟨_, w', hexec, rfl⟩
    · obtain ⟨w', hexec⟩ := exec_unwritable_iff.2 ⟨_, hmem, hstops⟩
      exact ⟨_, w', hexec, rfl⟩
  · rintro ⟨failure, w', hexec, hwords⟩
    rcases Failure.wordless?_eq_some_iff.1 hwords with ⟨digits, rfl, rfl⟩ | ⟨rfl, rfl⟩
    · obtain ⟨t, hparsed, hblamed⟩ := exec_longInteger_iff.1 ⟨w', hexec⟩
      exact .numeral hparsed hblamed
    · obtain ⟨d, hmem, hstops⟩ := exec_unwritable_iff.1 ⟨w', hexec⟩
      exact .deed hmem hstops

/-- In a text that is parsed, an integer is blamed just if there is one with too many digits. -/
theorem exists_longInteger_iff {source : String} {t : Tree} (h : Tree.ofSource source = .ok t) :
    (∃ digits, t.toProgram = .error (.longInteger digits)) ↔
      ∃ u ∈ (Scanned.ofString source).tokens, u.kind = .int ∧
        Decimal.maxDigits < u.text.length := by
  have hbuilds := Tree.builds_toProgram h
  have hlong : (∃ u ∈ (Scanned.ofString source).tokens, u.kind = .int ∧
      Decimal.maxDigits < u.text.length) ↔
      Token.longInts (Scanned.ofString source).tokens ≠ [] := by
    rw [ne_eq, Token.longInts_eq_nil_iff]
    simp
  rw [hlong, ne_eq, ← hbuilds.exists_ok_iff]
  cases ht : t.toProgram with
  | ok p => simp
  | error d =>
    rw [ht] at hbuilds
    obtain ⟨digits, -, rfl⟩ := hbuilds.of_error
    simp

/-- A unit is wordless just if it is parsed and one of its integers has too many digits, or if it
has a deed that has to be put into words and cannot be. -/
theorem exists_overlong_iff {limits : Limits} {flags : Flags} {source : String} {e : Env} :
    (∃ text, Overlong limits flags source e text) ↔
      (∃ t, Tree.ofSource source = .ok t) ∧
          (∃ u ∈ (Scanned.ofString source).tokens, u.kind = .int ∧
            Decimal.maxDigits < u.text.length) ∨
        ∃ d ∈ deeds limits source e, d.deed.stops flags.tracing = true := by
  constructor
  · rintro ⟨text, ⟨hparsed, hblamed⟩ | ⟨hmem, hstops⟩⟩
    · exact .inl ⟨⟨_, hparsed⟩, (exists_longInteger_iff hparsed).1 ⟨_, hblamed⟩⟩
    · exact .inr ⟨_, hmem, hstops⟩
  · rintro (⟨⟨t, hparsed⟩, hlong⟩ | ⟨d, hmem, hstops⟩)
    · obtain ⟨digits, hblamed⟩ := (exists_longInteger_iff hparsed).2 hlong
      exact ⟨_, .numeral hparsed hblamed⟩
    · exact ⟨_, .deed hmem hstops⟩

end Source

/-! ### Sessions -/

namespace Session

/-- A session between two units, with the settings that it was begun with. All values in its scopes
are complete. -/
structure Settled (flags : Flags) (style : Text.Style) (limits : Limits) (s : Session) : Prop where
  atRest : s.AtRest
  flags : s.flags = flags
  style : s.style = style
  limits : s.limits = limits
  complete : s.env.Complete

/-- The reply to a line that hands over a unit. -/
def reply (s : Session) (unit : String × Nat) : Reply :=
  let ran := s.runUnit unit.1 unit.2
  match ran.result with
  | .ok _ => ⟨false, none, ran.printed, ran.trace⟩
  | .error ending =>
    let (shown, _, verdict) := ran.session.handler.close ran.session.style ending
    ⟨false, if verdict = .resume then none else some ending, ran.printed ++ shown, ran.trace⟩

/-- No unit ends a shell. -/
theorem stop_reply (s : Session) (unit : String × Nat) : (s.reply unit).stop = false := by
  simp only [reply]
  cases (s.runUnit unit.1 unit.2).result <;> rfl

/-- The handler while a unit is run that was entered. -/
def marking (unit : String × Nat) : Handler :=
  ⟨false, [(promptPath, ⟨some unit.1, some unit.2⟩)]⟩

/-- The world in which the work on a unit begins. -/
def world (s : Session) (unit : String × Nat) : World :=
  ⟨s.env, "",
    if s.flags.tracing then #[s.path ++ ":" ++ toString unit.2 ++ ": running unit"] else #[]⟩

variable {s : Session} {unit : String × Nat}

/-- A session at rest marks the unit that is run, and nothing else. -/
theorem AtRest.registerLine (hs : s.AtRest) :
    s.handler.registerLine s.path ⟨some unit.1, some unit.2⟩ = marking unit := by
  simp [Handler.registerLine, hs.marks, hs.path, hs.lenient, Handler.setMark, marking]

/-- What the run of a unit comes to in a session, if it fails. -/
theorem runUnit_of_error (hs : s.AtRest) {failure : Failure} {w : World}
    (h : Source.exec s.limits s.flags unit.1 (s.world unit) = .error failure w) :
    s.runUnit unit.1 unit.2 = ⟨{ s with env := w.env, handler := marking unit },
      .error (failure.ending s.style), w.printed, w.trace⟩ := by
  rw [world] at h
  simp only [runUnit, exec, hs.registerLine, h]
  cases failure <;> simp [hs.path]

/-- What the run of a unit comes to in a session, if it does not fail. -/
theorem runUnit_of_ok (hs : s.AtRest) {flow : Flow} {w : World}
    (h : Source.exec s.limits s.flags unit.1 (s.world unit) = .ok flow w) :
    ∃ printed, s.runUnit unit.1 unit.2 =
      ⟨{ s with env := w.env, handler := (marking unit).removeLine s.path }, .ok flow, printed,
        w.trace⟩ := by
  rw [world] at h
  simp only [runUnit, exec, hs.registerLine, h]
  cases flow <;> exact ⟨_, rfl⟩

namespace Settled

variable {flags : Flags} {style : Text.Style} {limits : Limits}

/-- A session is settled when it begins. -/
theorem interactive : (Session.interactive flags style limits).Settled flags style limits :=
  ⟨atRest_interactive flags style limits, rfl, rfl, rfl, Env.Complete.initial⟩

/-- A unit ends regularly in a session that is settled. -/
theorem safe (h : s.Settled flags style limits) (unit : String × Nat) :
    (endState (Source.exec limits flags unit.1 (s.world unit))).env.Complete ∧
      ∀ failure w, Source.exec limits flags unit.1 (s.world unit) = .error failure w →
        failure.Regular :=
  Source.safe_exec limits ⟨flags, unit.1⟩ h.complete

/-- A session is settled again after a unit, in the environment that the unit has left. -/
theorem after (h : s.Settled flags style limits) (unit : String × Nat) :
    (s.after unit).Settled flags style limits ∧
      (s.after unit).env =
        (endState (Source.exec limits flags unit.1 (s.world unit))).env := by
  have hcomplete := (h.safe unit).1
  obtain ⟨hrest, hflags, hstyle, hlimits, -⟩ := h
  subst hflags hstyle hlimits
  have hafter := hrest.after unit
  cases hexec : Source.exec s.limits s.flags unit.1 (s.world unit) with
  | error failure w =>
    rw [hexec] at hcomplete
    simp only [Session.after, runUnit_of_error hrest hexec] at hafter ⊢
    exact ⟨⟨hafter, rfl, rfl, rfl, hcomplete⟩, rfl⟩
  | ok flow w =>
    rw [hexec] at hcomplete
    obtain ⟨printed, hran⟩ := runUnit_of_ok hrest hexec
    simp only [Session.after, hran] at hafter ⊢
    exact ⟨⟨hafter, rfl, rfl, rfl, hcomplete⟩, rfl⟩

/-- A session is settled after any units. -/
theorem foldl_after (h : s.Settled flags style limits) (units : List (String × Nat)) :
    (units.foldl Session.after s).Settled flags style limits := by
  induction units generalizing s with
  | nil => exact h
  | cons unit units ih => exact ih (h.after unit).1

/-- The reply to a unit that fails tells of the error. It is a crash if the failure is wordless. -/
theorem reply_of_error (h : s.Settled flags style limits) (unit : String × Nat)
    {failure : Failure} {w : World}
    (hexec : Source.exec limits flags unit.1 (s.world unit) = .error failure w) :
    (s.reply unit).crash = failure.wordless?.map (.crashed "ValueError") ∧
      ∃ n : Notice, n.internal = failure.wordless?.isSome ∧
        (s.reply unit).shown = w.printed ++ (marking unit).errorText style n := by
  have hregular := (h.safe unit).2 _ _ hexec
  obtain ⟨hrest, hflags, hstyle, hlimits, -⟩ := h
  subst hflags hstyle hlimits
  obtain ⟨n, hinternal, hclose⟩ := hregular.close (marking unit) rfl s.style
  simp only [reply, runUnit_of_error hrest hexec, hclose]
  refine ⟨?_, n, hinternal, rfl⟩
  rcases hregular.ending s.style with ⟨text, hwords, hending⟩ | ⟨hwords, -⟩
  · simp [hwords, hending]
  · simp [hwords]

/-- The reply to a unit that does not fail is no crash. -/
theorem reply_of_ok (h : s.Settled flags style limits) (unit : String × Nat) {flow : Flow}
    {w : World} (hexec : Source.exec limits flags unit.1 (s.world unit) = .ok flow w) :
    (s.reply unit).crash = none := by
  obtain ⟨hrest, hflags, hstyle, hlimits, -⟩ := h
  subst hflags hstyle hlimits
  obtain ⟨printed, hran⟩ := runUnit_of_ok hrest hexec
  simp only [reply, hran]

/-- The reply to a unit is a crash just if the unit is wordless. -/
theorem reply_crash_iff (h : s.Settled flags style limits) (unit : String × Nat)
    (ending : Ending) :
    (s.reply unit).crash = some ending ↔
      ∃ text, Source.Overlong limits flags unit.1 s.env text ∧
        ending = .crashed "ValueError" text := by
  have hiff (text : String) :
      Source.Overlong limits flags unit.1 s.env text ↔ ∃ failure w,
        Source.exec limits flags unit.1 (s.world unit) = .error failure w ∧
          failure.wordless? = some text :=
    Source.overlong_iff (w := s.world unit)
  cases hexec : Source.exec limits flags unit.1 (s.world unit) with
  | ok flow w => simp [h.reply_of_ok unit hexec, hiff, hexec]
  | error failure w => simp [(h.reply_of_error unit hexec).1, hiff, hexec, @eq_comm _ _ ending]

end Settled

end Session

/-! ### The shell -/

namespace Shell

variable {line : String} {unit : String × Nat}

/-- The request of a line of source text. -/
theorem source?_eq_some_iff {text : String} :
    source? line = some text ↔ request line = .source text := by
  unfold source?
  cases request line <;> simp

/-- The reply to a unit depends on the session only. -/
theorem runUnit_fst (sh : Shell) (unit : String) :
    (sh.runUnit unit).1 = sh.session.reply (unit, sh.startLine) := by
  simp only [runUnit, Session.reply]
  cases (sh.session.runUnit unit sh.startLine).result <;> rfl

/-- A shell that hands a unit over keeps nothing of it. -/
theorem take_of_handed {sh : Shell} {text unit : String} (h : (sh.take text).1 = some unit) :
    (sh.take text).2.pending = "" ∧ (sh.take text).2.prompt = firstPrompt := by
  cases hopen : Entry.isOpen (Entry.extend sh.pending.toList text.toList) with
  | true =>
    rw [take_of_open hopen] at h
    cases h
  | false =>
    rw [take_of_closed hopen]
    exact ⟨rfl, rfl⟩

/-- A line of source text that hands nothing over is answered with nothing. -/
theorem feedSource_of_none {sh : Shell} {text : String} (h : (sh.take text).1 = none) :
    (sh.feedSource text).1 = ⟨false, none, "", #[]⟩ := by
  simp only [feedSource]
  generalize sh.take text = taken at h
  obtain ⟨unit?, next⟩ := taken
  cases h
  rfl

/-- A line of source text that hands a unit over has it run. -/
theorem feedSource_of_some {sh : Shell} {text source : String}
    (h : (sh.take text).1 = some source) :
    sh.feedSource text = (sh.take text).2.runUnit source := by
  simp only [feedSource]
  generalize sh.take text = taken at h
  obtain ⟨unit?, next⟩ := taken
  cases h
  rfl

/-- A line that hands nothing over is answered without a crash, and leaves the session alone. -/
theorem feed_unhanded (sh : Shell) (h : sh.handed? line = none) :
    (sh.feed line).1.crash = none ∧ (sh.feed line).2.session = sh.session := by
  refine ⟨?_, by rw [session_feed, h]; rfl⟩
  unfold feed
  cases hrequest : request line with
  | source text =>
    rw [handed?, source?_eq_some_iff.2 hrequest] at h
    rw [feedSource_of_none (Option.map_eq_none_iff.1 h)]
  | nothing | help | endOfInput | exit => rfl

/-- A line that hands a unit over gets the reply to that unit; the next line begins a new one. -/
theorem feed_handed (sh : Shell) (h : sh.handed? line = some unit) :
    (sh.feed line).1 = sh.session.reply unit ∧
      (sh.feed line).2.session = sh.session.after unit ∧
      (sh.feed line).2.pending = "" ∧ (sh.feed line).2.prompt = firstPrompt := by
  have hsession : (sh.feed line).2.session = sh.session.after unit := by
    rw [session_feed, h]
    rfl
  cases hline : source? line with
  | none =>
    rw [handed?, hline] at h
    cases h
  | some text =>
    have hfeed := sh.feed_source hline
    rw [handed?, hline, Option.map_eq_some_iff] at h
    obtain ⟨source, htake, rfl⟩ := h
    obtain ⟨hpending, hprompt⟩ := take_of_handed htake
    refine ⟨?_, hsession, by rw [hfeed]; exact hpending, by rw [hfeed]; exact hprompt⟩
    rw [feed, source?_eq_some_iff.1 hline, ← sh.session_take text, ← runUnit_fst,
      ← feedSource_of_some htake]

/-! ### Lines that are units -/

/-- Lines are given one after the other. -/
theorem feedAll_cons (sh : Shell) (line : String) (lines : List String) :
    sh.feedAll (line :: lines) = (sh.feed line).2.feedAll lines := rfl

/-- A line that is a unit of its own. -/
structure Whole (line : String) : Prop where
  source : source? line = some line
  clean : Entry.clean line.toList = line.toList
  closed : Entry.isOpen line.toList = false
  solid : (Text.trim line.toList).isEmpty = false

/-- A shell that waits for nothing hands over a line that is a unit. -/
theorem Whole.handed? {sh : Shell} (h : Whole line) (hpending : sh.pending = "") :
    sh.handed? line = some (line, sh.lineNumber + 1) := by
  have hextend : Entry.extend sh.pending.toList line.toList = line.toList := by
    simp [Entry.extend, hpending, h.clean]
  have hopen : Entry.isOpen (Entry.extend sh.pending.toList line.toList) = false := by
    rw [hextend, h.closed]
  simp only [Shell.handed?, h.source, take_of_closed hopen, hextend, h.solid, Bool.false_eq_true,
    if_false, Option.map_some, String.ofList_toList]
  simp [hpending]

/-- A shell that waits for nothing, with this environment. -/
structure Waits (sh : Shell) (e : Env) : Prop where
  settled : sh.session.Settled {} .plain ⟨2, 2⟩
  env : sh.session.env = e
  pending : sh.pending = ""

/-- A shell begins so. -/
theorem Waits.start : Waits (start (.interactive {} .plain ⟨2, 2⟩)) .initial :=
  ⟨Session.Settled.interactive, rfl, rfl⟩

/-- A unit is run in that environment. -/
theorem Waits.world {sh : Shell} {e : Env} (h : sh.Waits e) (unit : String × Nat) :
    sh.session.world unit = ⟨e, "", #[]⟩ := by
  simp [Session.world, h.settled.flags, h.env]

/-- It waits again after a line that is a unit, with the environment that the program leaves. -/
theorem Waits.feed {sh : Shell} {e : Env} {p : Program} (h : sh.Waits e) (hline : Whole line)
    (hp : Source.program line = .ok p) :
    (sh.feed line).2.Waits (endState (p.exec ⟨2, 2⟩ false ⟨e, "", #[]⟩)).env := by
  obtain ⟨-, hsession, hnext, -⟩ := sh.feed_handed (hline.handed? h.pending)
  obtain ⟨hafter, henv⟩ := h.settled.after (line, sh.lineNumber + 1)
  rw [← hsession] at hafter henv
  refine ⟨hafter, ?_, hnext⟩
  rw [henv, h.world, Source.exec_of_program _ hp, Source.endState_run]

/-! ### When a shell crashes -/

/-- No line of source text ends a shell. -/
theorem stop_feedSource (sh : Shell) (text : String) : (sh.feedSource text).1.stop = false := by
  cases h : (sh.take text).1 with
  | none => rw [feedSource_of_none h]
  | some source => rw [feedSource_of_some h, runUnit_fst, Session.stop_reply]

/-- Only a line that asks for it ends a shell. -/
theorem stop_feed_iff (sh : Shell) (line : String) :
    (sh.feed line).1.stop = true ↔ request line = .endOfInput ∨ request line = .exit := by
  unfold feed
  cases request line with
  | source text => simp [stop_feedSource]
  | nothing | help | endOfInput | exit => simp

/-- Whatever lines were given to a shell before, and whatever a line says: the shell ends only if
the line asks for it. If the line hands a unit over, then the shell crashes just if the unit is
wordless: it is parsed and one of its integers has too many digits, or its run has a deed that has
to be put into words and cannot be. In any case a failure is reported, as one that is internal if it
is a crash; the shell keeps the environment that the unit has left, is at rest, and begins a new
unit. -/
theorem feed_crash (flags : Flags) (style : Text.Style) (limits : Limits) (lines : List String)
    (line : String) :
    let sh := (start (.interactive flags style limits)).feedAll lines
    let reply := (sh.feed line).1
    let next := (sh.feed line).2
    (reply.stop = true ↔ request line = .endOfInput ∨ request line = .exit) ∧
    (sh.handed? line = none → reply.crash = none ∧ next.session = sh.session) ∧
    ∀ unit number, sh.handed? line = some (unit, number) →
      let ran := Source.exec limits flags unit (sh.session.world (unit, number))
      (∀ ending, reply.crash = some ending ↔
        ∃ text, Source.Overlong limits flags unit sh.session.env text ∧
          ending = .crashed "ValueError" text) ∧
      ((∃ text, Source.Overlong limits flags unit sh.session.env text) ↔
        (∃ t, Tree.ofSource unit = .ok t) ∧
            (∃ u ∈ (Scanned.ofString unit).tokens, u.kind = .int ∧
              Decimal.maxDigits < u.text.length) ∨
          ∃ d ∈ Source.deeds limits unit sh.session.env, d.deed.stops flags.tracing = true) ∧
      (∀ failure w, ran = .error failure w → ∃ n : Notice, n.internal = reply.crash.isSome ∧
        reply.shown = w.printed ++ (Session.marking (unit, number)).errorText style n) ∧
      next.session.env = (endState ran).env ∧ next.session.AtRest ∧
      next.pending = "" ∧ next.prompt = firstPrompt := by
  intro sh
  have hsettled : sh.session.Settled flags style limits := by
    rw [show sh.session = _ from (start (.interactive flags style limits)).session_feedAll lines]
    exact Session.Settled.interactive.foldl_after _
  -- The lines before count only through the session that they have left.
  clear_value sh
  intro reply next
  refine ⟨sh.stop_feed_iff line, sh.feed_unhanded, fun unit number hhanded => ?_⟩
  obtain ⟨hreply, hsession, hpending, hprompt⟩ := sh.feed_handed hhanded
  obtain ⟨hafter, henv⟩ := hsettled.after (unit, number)
  have hnext : next.session = sh.session.after (unit, number) := hsession
  refine ⟨fun ending => ?_, Source.exists_overlong_iff, fun failure w hran => ?_, ?_, ?_, hpending,
    hprompt⟩
  · rw [show reply = _ from hreply]
    exact hsettled.reply_crash_iff (unit, number) ending
  · obtain ⟨hcrash, n, hinternal, hshown⟩ := hsettled.reply_of_error (unit, number) hran
    rw [show reply = _ from hreply, hcrash]
    exact ⟨n, by rw [hinternal, Option.isSome_map], hshown⟩
  · rw [hnext, henv]
  · rw [hnext]
    exact hafter.atRest

/-- The line that declares a function is a unit. -/
theorem whole_declare : Whole "fun f(n) \x7b return n; \x7d" :=
  ⟨by decide, by decide, by decide, by decide⟩

/-- The line that calls it is a unit. -/
theorem whole_call : Whole "var y = f(true); x;" := ⟨by decide, by decide, by decide, by decide⟩

/-- The unit declares a function that gives its argument back. -/
theorem program_declare : Source.program "fun f(n) \x7b return n; \x7d" =
    .ok [.func "f" ["n"] [.ret (some (.name "n"))]] := by
  rw [Source.program, Tree.ofSource, Scanned.ofString_pieces [(.token .funWord, "fun".toList),
    (.skipped, " ".toList), (.token .ident, "f".toList), (.token .leftParen, "(".toList),
    (.token .ident, "n".toList), (.token .rightParen, ")".toList), (.skipped, " ".toList),
    (.token .leftBrace, "\x7b".toList), (.skipped, " ".toList),
    (.token .returnWord, "return".toList), (.skipped, " ".toList), (.token .ident, "n".toList),
    (.token .semicolon, ";".toList), (.skipped, " ".toList), (.token .rightBrace, "\x7d".toList)]
    (by decide) (by decide)]
  with_unfolding_all rfl

-- The lexemes of the line that calls it.
private def callPieces : List (Lexeme × List Char) :=
  [(.token .varWord, "var".toList), (.skipped, " ".toList), (.token .ident, "y".toList),
    (.skipped, " ".toList), (.token .assign, "=".toList), (.skipped, " ".toList),
    (.token .ident, "f".toList), (.token .leftParen, "(".toList),
    (.token .yes, "true".toList), (.token .rightParen, ")".toList),
    (.token .semicolon, ";".toList), (.skipped, " ".toList), (.token .ident, "x".toList),
    (.token .semicolon, ";".toList)]

/-- The unit calls it, binds a name to what it gives and reads another name. -/
theorem program_call : Source.program "var y = f(true); x;" =
    .ok [.var "y" (some (.call "f" [.literal (.bool true)])), .expr (.name "x")] := by
  rw [Source.program, Tree.ofSource, Scanned.ofString_pieces callPieces (by decide) (by decide)]
  with_unfolding_all rfl

/-- A line that calls a function, binds a name and then reads one that nothing binds: that is
reported, and is no crash. The shell keeps what was bound. -/
theorem feed_crash_called :
    let line := "var y = f(true); x;"
    let sh := (start (.interactive {} .plain ⟨2, 2⟩)).feedAll ["fun f(n) \x7b return n; \x7d"]
    let next := (sh.feed line).2
    let unit := (line, sh.lineNumber + 1)
    sh.handed? line = some unit ∧
      (∃ w, Source.exec ⟨2, 2⟩ {} line (sh.session.world unit) =
        .error (.stopped (.fault (.undefinedVariable "x"))) w) ∧
      (sh.feed line).1.crash = none ∧
      next.session.env.get? "y" = some (.bool true) ∧ next.pending = "" := by
  intro line sh next unit
  have hsh : sh.Waits _ := Waits.start.feed whole_declare program_declare
  have hhanded : sh.handed? line = some unit := whole_call.handed? hsh.pending
  obtain ⟨w, hran, hbound⟩ : ∃ w, Source.exec ⟨2, 2⟩ {} line (sh.session.world unit) =
      .error (.stopped (.fault (.undefinedVariable "x"))) w ∧
        w.env.get? "y" = some (.bool true) := by
    rw [Source.exec_of_program _ program_call, hsh.world]
    exact ⟨_, rfl, rfl⟩
  have hdeeds : ∀ d ∈ Source.deeds ⟨2, 2⟩ line sh.session.env, d.deed.stops false = false := by
    rw [Source.deeds_of_ok program_call, hsh.env]
    decide +kernel
  obtain ⟨-, -, hunit⟩ := feed_crash {} .plain ⟨2, 2⟩ ["fun f(n) \x7b return n; \x7d"] line
  obtain ⟨hcrash, hlong, -, henv, -, hpending, -⟩ := hunit _ _ hhanded
  rw [hran] at henv
  refine ⟨hhanded, ⟨w, hran⟩, ?_, henv ▸ hbound, hpending⟩
  refine Option.eq_none_iff_forall_not_mem.2 fun ending hending => ?_
  obtain ⟨text, hover, -⟩ := (hcrash ending).1 hending
  rcases hlong.1 ⟨text, hover⟩ with ⟨-, u, hu, hint, -⟩ | ⟨d, hd, hstops⟩
  · rw [Scanned.ofString_pieces callPieces (by decide) (by decide)] at hu
    revert u
    decide
  · exact Bool.false_ne_true ((hdeeds d hd).symm.trans hstops)

/-! ### An integer that grows -/

/-- The line that binds `n` is a unit. -/
theorem whole_define : Whole "var n = 10;" := ⟨by decide, by decide, by decide, by decide⟩

/-- The line that squares `n` is a unit. -/
theorem whole_square : Whole "n = n * n;" := ⟨by decide, by decide, by decide, by decide⟩

/-- The line that prints `n` is a unit. -/
theorem whole_print : Whole "print n;" := ⟨by decide, by decide, by decide, by decide⟩

/-- The unit that binds `n` gives it the value ten. -/
theorem program_define :
    Source.program "var n = 10;" = .ok [.var "n" (some (.literal (.int 10)))] := by
  rw [Source.program, Tree.ofSource, Scanned.ofString_pieces [(.token .varWord, "var".toList),
    (.skipped, " ".toList), (.token .ident, "n".toList), (.skipped, " ".toList),
    (.token .assign, "=".toList), (.skipped, " ".toList), (.token .int, "10".toList),
    (.token .semicolon, ";".toList)] (by decide) (by decide)]
  with_unfolding_all rfl

/-- The unit that squares `n` gives it the square of its value. -/
theorem program_square : Source.program "n = n * n;" =
    .ok [.expr (.assign (.name "n") (.binary .times (.name "n") (.name "n")))] := by
  rw [Source.program, Tree.ofSource, Scanned.ofString_pieces [(.token .ident, "n".toList),
    (.skipped, " ".toList), (.token .assign, "=".toList), (.skipped, " ".toList),
    (.token .ident, "n".toList), (.skipped, " ".toList), (.token .times, "*".toList),
    (.skipped, " ".toList), (.token .ident, "n".toList), (.token .semicolon, ";".toList)]
    (by decide) (by decide)]
  with_unfolding_all rfl

/-- The unit that prints `n` prints the value of that name. -/
theorem program_print : Source.program "print n;" = .ok [.print (.name "n")] := by
  rw [Source.program, Tree.ofSource, Scanned.ofString_pieces [(.token .printWord, "print".toList),
    (.skipped, " ".toList), (.token .ident, "n".toList), (.token .semicolon, ";".toList)]
    (by decide) (by decide)]
  with_unfolding_all rfl

/-- A shell that waits for nothing, and in which `n` has an integer as its value. -/
def Holds (sh : Shell) (m : Int) : Prop := sh.Waits (Source.withN (.int m)).env

/-- A line that makes `n` ten. -/
theorem holds_ten : ((start (.interactive {} .plain ⟨2, 2⟩)).feed "var n = 10;").2.Holds 10 :=
  Waits.start.feed whole_define program_define

/-- A line that squares `n`. -/
theorem Holds.square {sh : Shell} {m : Int} (h : sh.Holds m) :
    (sh.feed "n = n * n;").2.Holds (m * m) :=
  Waits.feed h whole_square program_square

/-- It grows with each line. -/
theorem Holds.squares {sh : Shell} {m : Nat} (h : sh.Holds m) (k : Nat) :
    (sh.feedAll (List.replicate k "n = n * n;")).Holds (Nat.pow m (Nat.pow 2 k)) := by
  induction k with
  | zero =>
    have hone : Nat.pow m (Nat.pow 2 0) = m := Nat.pow_one m
    rw [hone]
    exact h
  | succ k ih =>
    have hdouble : Nat.pow m (Nat.pow 2 (k + 1)) =
        Nat.pow m (Nat.pow 2 k) * Nat.pow m (Nat.pow 2 k) :=
      (congrArg (Nat.pow m) (Nat.mul_two _)).trans (Nat.pow_add m _ _)
    rw [List.replicate_succ', feedAll_concat, hdouble, Int.natCast_mul]
    exact ih.square

/-- The deed of a unit that prints the value of a name. -/
theorem mem_deeds_print {limits : Limits} {source x : String} {e : Env} {v : Value}
    (hprogram : Source.program source = .ok [.print (.name x)]) (hx : e.get? x = some v) :
    ⟨.printed v, ⟨e, "", #[]⟩⟩ ∈ Source.deeds limits source e := by
  rw [Source.deeds, hprogram]
  cases hv : v.isWritable <;>
    simp [Program.account, Program.on, Program.onBy, Stmt.allOn, Stmt.on, Expr.on, Machine.account,
      Accounted.lookup, hx, Accounted.print, Accounted.tell, Accounted.ofEval, Eval.print,
      Value.text?, hv, Eval.write, bind, EStateM.bind, pure, EStateM.pure, Eval.throw_eq, endState]

/-- Printing an integer that is too long is a crash. -/
theorem Holds.crash_print {sh : Shell} {m : Int} (h : sh.Holds m)
    (hm : Decimal.isWritable m = false) :
    (sh.feed "print n;").1.crash = some (.crashed "ValueError" Decimal.unwritableText) := by
  rw [(sh.feed_handed (whole_print.handed? h.pending)).1, h.settled.reply_crash_iff]
  refine ⟨_, .deed (d := ⟨.printed (.int m), Source.withN (.int m)⟩) ?_ ?_, rfl⟩
  · rw [h.env]
    exact mem_deeds_print program_print rfl
  · simp [Deed.stops, Deed.isWorded, Deed.isWritable, Value.isWritable, hm]

/-- Ten that is squared often enough is an integer that is too long. (For every number of squares:
a power of this size must not be evaluated.) -/
theorem Holds.crash_squares {sh : Shell} (h : sh.Holds 10) {k : Nat}
    (hk : Decimal.maxDigits ≤ Nat.pow 2 k) :
    ((sh.feedAll (List.replicate k "n = n * n;")).feed "print n;").1.crash =
      some (.crashed "ValueError" Decimal.unwritableText) :=
  (h.squares k).crash_print (Decimal.isWritable_pow hk)

/-- No integer in these lines is too long, but the last line crashes. -/
theorem feed_crash_print :
    (((start (.interactive {} .plain ⟨2, 2⟩)).feedAll
      ("var n = 10;" :: List.replicate 13 "n = n * n;")).feed "print n;").1.crash =
        some (.crashed "ValueError" Decimal.unwritableText) := by
  rw [feedAll_cons]
  exact holds_ten.crash_squares (by decide)

end Shell

end Lox
