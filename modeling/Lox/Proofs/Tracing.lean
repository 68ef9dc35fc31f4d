import Lox.Proofs.Deeds
import Lox.Proofs.Erasure
import Lox.Proofs.Spelling

/-!
# Flags

Flags let a unit show its tree and its dump before it runs, and take notes. A run that takes notes
is the same as one that does not, up to a call that cannot be noted: an argument of it is an integer
that is too long to be written out. There the run with notes stops, and the other goes on.
-/

namespace Lox

/-- An integer can be written out up to a bound. -/
theorem Decimal.isWritable_iff {n : Int} :
    isWritable n = true ↔ n.natAbs < unwritable := by
  rw [isWritable, decide_eq_true_iff]

/-- One can be written out. -/
theorem Decimal.isWritable_one : isWritable 1 = true := by
  have hpow (digits : Nat) (h : digits ≠ 0) : 1 < Nat.pow 10 digits := Nat.one_lt_pow h (by decide)
  rw [isWritable_iff, Int.natAbs_one]
  unfold unwritable
  exact hpow maxDigits (by decide)

/-- A power of ten with too many zeros cannot be written out. -/
theorem Decimal.isWritable_pow {k : Nat} (h : maxDigits ≤ k) :
    isWritable (Nat.pow 10 k) = false := by
  have hpow (digits : Nat) (hdigits : digits ≤ k) : Nat.pow 10 digits ≤ Nat.pow 10 k :=
    Nat.pow_le_pow_right (by decide) hdigits
  rw [← Bool.not_eq_true, isWritable_iff, Int.natAbs_natCast, Nat.not_lt]
  unfold unwritable
  exact hpow maxDigits h

namespace Deed

/-- Whether the deed is a call. -/
def isCall : Deed → Bool
  | called _ _ => true
  | printed _ | failed _ => false

/-- A deed that does not stop a run with notes does not stop one without them. -/
theorem stops_false {d : Deed} {tracing : Bool} (h : d.stops tracing = false) :
    d.stops false = false := by
  cases d <;> simp_all [stops, isWorded]

/-- Only for calls it counts whether they are noted. -/
theorem stops_of_isCall {d : Deed} (h : d.isCall = false) (tracing tracing' : Bool) :
    d.stops tracing = d.stops tracing' := by
  cases d <;> first | rfl | cases h

end Deed

namespace Setting

variable {s : Setting} {deeds : List Doing}

/-- Where nothing stops a run that takes notes, nothing stops a run that takes none. -/
theorem halt?_false_of_none (h : s.halt? deeds = none) (printed : String) (trace : Array String) :
    halt? ⟨false, printed, trace⟩ deeds = none := by
  rw [halt?, List.find?_eq_none] at h ⊢
  intro d hd
  have hstops := h d hd
  simp only [Bool.not_eq_true] at hstops ⊢
  exact Deed.stops_false hstops

/-- Whatever stops a run that takes notes, but for a call, stops one that takes none. -/
theorem halt?_false_of_some {d : Doing} (h : s.halt? deeds = some d) (hd : d.deed.isCall = false)
    (printed : String) (trace : Array String) : halt? ⟨false, printed, trace⟩ deeds = some d := by
  rw [halt?, List.find?_eq_some_iff_append] at h ⊢
  obtain ⟨hstops, front, back, rfl, hfront⟩ := h
  refine ⟨?_, front, back, rfl, fun first hfirst => ?_⟩
  · rw [← hstops]
    exact Deed.stops_of_isCall hd _ _
  · have hgoes := hfront first hfirst
    simp only [Bool.not_eq_true'] at hgoes ⊢
    exact Deed.stops_false hgoes

/-- Without tracing nothing is noted. -/
theorem notes_false (printed : String) (trace : Array String) :
    notes ⟨false, printed, trace⟩ deeds = trace := by
  have hnone : (deeds.filterMap fun d => d.deed.note? false) = [] := by
    rw [List.filterMap_eq_nil_iff]
    intro d _
    cases hdeed : d.deed <;> simp [Deed.note?]
  simp [notes, hnone]

/-- Unless a call stops it, a run that takes notes comes to the same as one that takes none. -/
theorem outcome_eq_quiet {α : Type} {res : EStateM.Result Stop Account α}
    (h : ∀ d, s.halt? (endState res).deeds = some d → d.deed.isCall = false)
    (stack : List ScopeId) (printed : String) (trace : Array String) :
    ∃ own, (endState (outcome ⟨false, printed, trace⟩ stack res)).printed = printed ++ own ∧
      (endState (outcome ⟨false, printed, trace⟩ stack res)).trace = trace ∧
      s.outcome stack res =
        mapEnd (fun v => ⟨v.env, s.printed ++ own, s.notes (s.before (endState res).deeds)⟩)
          (outcome ⟨false, printed, trace⟩ stack res) := by
  cases hhalt : s.halt? (endState res).deeds with
  | none =>
    have hquiet := halt?_false_of_none hhalt printed trace
    rw [outcome_of_none hhalt, outcome_of_none hquiet, before_of_halt? hhalt]
    refine ⟨(endState res).world.printed, ?_, ?_, ?_⟩
    · rw [seen, endState_mapEnd]
      rfl
    · rw [seen, endState_mapEnd]
      exact notes_false printed trace
    · cases res <;> rfl
  | some d =>
    have hquiet := halt?_false_of_some hhalt (h d hhalt) printed trace
    rw [outcome_of_halt hhalt, outcome_of_halt hquiet]
    exact ⟨d.world.printed, rfl, notes_false printed trace, rfl⟩

end Setting

namespace Source

/-- What the flags let a unit show before it runs. -/
def display (flags : Flags) (source : String) : String :=
  match Tree.ofSource source with
  | .error _ => ""
  | .ok t =>
    (if flags.tree then t.outline ++ "\n" else "") ++
      match t.toProgram with
      | .error _ => ""
      | .ok p => if flags.dump then p.dump else ""

/-- What is noted before a unit runs. -/
def heading (flags : Flags) (source : String) : Array String :=
  match program source with
  | .error _ => #[]
  | .ok p =>
    if flags.tracing then #["built program with " ++ toString p.length ++ " declaration(s)"]
    else #[]

/-- The world in which a unit begins to run. -/
def opening (flags : Flags) (source : String) (w : World) : World :=
  ⟨w.env, w.printed ++ display flags source, w.trace ++ heading flags source⟩

/-- The deeds of a unit that is run in an environment. -/
def deeds (limits : Limits) (source : String) (e : Env) : List Doing :=
  match program source with
  | .error _ => []
  | .ok p => (endState (p.account limits e)).deeds

/-- A text that is no program does nothing. -/
theorem deeds_of_error {limits : Limits} {source : String} {failure : Failure}
    (h : program source = .error failure) (e : Env) : deeds limits source e = [] := by
  simp only [deeds, h]

/-- The deeds of a text are those of its program. -/
theorem deeds_of_ok {limits : Limits} {source : String} {p : Program}
    (h : program source = .ok p) (e : Env) :
    deeds limits source e = (endState (p.account limits e)).deeds := by
  simp only [deeds, h]

private theorem showTree_eq (flags : Flags) (t : Tree) (w : World) :
    showTree flags t w =
      .ok () { w with printed := w.printed ++ if flags.tree then t.outline ++ "\n" else "" } := by
  cases h : flags.tree with
  | true =>
    simp only [showTree, h, if_true, run]
    rfl
  | false =>
    simp [showTree, h]
    rfl

private theorem noteProgram_eq (flags : Flags) (p : Program) (w : World) :
    noteProgram flags p w = .ok () { w with trace := w.trace ++ if flags.tracing then
      #["built program with " ++ toString p.length ++ " declaration(s)"] else #[] } := by
  cases h : flags.tracing with
  | true =>
    simp only [noteProgram, h, if_true, run]
    rfl
  | false =>
    simp [noteProgram, h]
    rfl

private theorem showDump_eq (flags : Flags) (p : Program) (w : World) :
    showDump flags p w =
      .ok () { w with printed := w.printed ++ if flags.dump then p.dump else "" } := by
  cases h : flags.dump with
  | true =>
    simp only [showDump, h, if_true, run]
    rfl
  | false =>
    simp [showDump, h]
    rfl

/-- A unit shows what its flags let it show, and then it is its program, if it is one. -/
theorem prepare_eq_opening (job : Job) (w : World) :
    prepare job w =
      match program job.source with
      | .error failure => .error failure (opening job.flags job.source w)
      | .ok p => .ok p (opening job.flags job.source w) := by
  simp only [prepare, program, opening, display, heading]
  cases Tree.ofSource job.source with
  | error e =>
    simp only [String.append_empty, Array.append_empty]
    rfl
  | ok t =>
    rw [show lift Failure.syntaxError (.ok t : Except SyntaxError Tree) = pure t from rfl,
      pure_bind, bind_of_ok (showTree_eq job.flags t w)]
    cases hp : t.toProgram with
    | error d =>
      simp only [hp, String.append_empty, Array.append_empty]
      rfl
    | ok p =>
      rw [show lift Failure.defect (.ok p : Except Defect Program) = pure p from rfl,
        pure_bind, bind_of_ok (noteProgram_eq job.flags p _),
        bind_of_ok (showDump_eq job.flags p _)]
      simp only [hp, String.append_assoc]
      rfl

/-- Then it runs. -/
theorem exec_eq_opening (limits : Limits) (flags : Flags) (source : String) (w : World) :
    exec limits flags source w =
      match program source with
      | .error failure => .error failure (opening flags source w)
      | .ok p => run (p.exec limits flags.tracing) (opening flags source w) := by
  rw [exec_eq_prepare limits ⟨flags, source⟩]
  simp only [bind, EStateM.bind, prepare_eq_opening]
  cases program source <;> rfl

/-- Without flags a unit begins to run in the world as it is. -/
theorem opening_none (source : String) (w : World) : opening {} source w = w := by
  have hdisplay : display {} source = "" := by
    simp only [display]
    cases Tree.ofSource source with
    | error e => rfl
    | ok t => cases ht : t.toProgram <;> simp [ht]
  have hheading : heading {} source = #[] := by
    simp only [heading]
    cases program source <;> rfl
  simp [opening, hdisplay, hheading]

/-- A step that comes to the same but for the world does so as a stage. -/
theorem run_mapEnd {α : Type} {act act' : Eval α} {w w' : World} {f : World → World}
    (h : act w = mapEnd f (act' w')) : run act w = mapEnd f (run act' w') := by
  rw [run, run, h]
  cases act' w' <;> rfl

/-- What is noted of the deeds of a run, up to one that stops it. -/
def noted (flags : Flags) (deeds : List Doing) : Array String :=
  ((deeds.takeWhile fun d => !d.deed.stops flags.tracing).filterMap
    fun d => d.deed.note? flags.tracing).toArray

/-- The call at which the run of a unit stops, because it is to be noted and cannot be. -/
def snag? (limits : Limits) (flags : Flags) (source : String) (e : Env) : Option Doing :=
  ((deeds limits source e).find? fun d => d.deed.stops flags.tracing).filter fun d => d.deed.isCall

/-- Where no calls are noted, or all can be, none stops a unit. -/
theorem snag?_eq_none {limits : Limits} {flags : Flags} {source : String} {e : Env}
    (h : flags.tracing = true →
      ∀ d ∈ deeds limits source e, d.deed.isCall = true → d.deed.isWritable = true) :
    snag? limits flags source e = none := by
  rw [snag?, Option.filter_eq_none_iff]
  intro d hd hcall
  have hstops := List.find?_some hd
  have hmem := List.mem_of_find?_eq_some hd
  rw [Deed.stops, Bool.and_eq_true, Bool.not_eq_true'] at hstops
  have htracing : flags.tracing = true := by
    cases hdeed : d.deed with
    | called f args =>
      rw [hdeed] at hstops
      exact hstops.1
    | printed | failed =>
      rw [hdeed] at hcall
      cases hcall
  rw [h htracing d hmem hcall] at hstops
  cases hstops.2

/-- The setting in which a unit begins to run. -/
def setting (flags : Flags) (source : String) (w : World) : Setting :=
  ⟨flags.tracing, w.printed ++ display flags source, w.trace ++ heading flags source⟩

/-- Unless there is a call that cannot be noted, a unit comes to the same with flags as without, but
for what is shown before it and what is noted. -/
theorem exec_of_no_snag {limits : Limits} {flags : Flags} {source : String} {w : World}
    (h : snag? limits flags source w.env = none) :
    ∃ own, (endState (exec limits {} source w)).printed = w.printed ++ own ∧
      (endState (exec limits {} source w)).trace = w.trace ∧
      exec limits flags source w = mapEnd
        (fun v => ⟨v.env, w.printed ++ display flags source ++ own,
          w.trace ++ heading flags source ++ noted flags (deeds limits source w.env)⟩)
        (exec limits {} source w) := by
  rw [exec_eq_opening limits {}, exec_eq_opening limits flags, opening_none]
  cases hp : program source with
  | error failure =>
    refine ⟨"", String.append_empty.symm, rfl, ?_⟩
    simp [mapEnd, opening, noted, deeds_of_error hp]
  | ok p =>
    have hcalls : ∀ d, (setting flags source w).halt? (endState (p.account limits w.env)).deeds =
        some d → d.deed.isCall = false := by
      intro d hd
      simp only [snag?, deeds_of_ok hp, Option.filter_eq_none_iff, Bool.not_eq_true] at h
      exact h d hd
    obtain ⟨own, hprinted, htrace, hsame⟩ :=
      Setting.outcome_eq_quiet hcalls w.env.inner w.printed w.trace
    have hrun := p.exec_eq_outcome limits false w
    refine ⟨own, ?_, ?_, run_mapEnd ?_⟩
    · rw [endState_run, hrun]
      exact hprinted
    · rw [endState_run, hrun]
      exact htrace
    · rw [p.exec_eq_outcome, hrun, deeds_of_ok hp]
      exact hsame

/-- A unit with flags stops at the first call that is to be noted and cannot be. -/
theorem exec_of_snag {limits : Limits} {flags : Flags} {source : String} {w : World} {d : Doing}
    (h : snag? limits flags source w.env = some d) :
    exec limits flags source w = .error (.stopped .unwritable)
      ⟨⟨d.world.env.scopes, w.env.inner⟩, w.printed ++ display flags source ++ d.world.printed,
        w.trace ++ heading flags source ++ noted flags (deeds limits source w.env)⟩ := by
  have hfind := (Option.filter_eq_some_iff.1 h).1
  rw [exec_eq_opening]
  cases hp : program source with
  | error failure => simp [deeds_of_error hp] at hfind
  | ok p =>
    rw [deeds_of_ok hp] at hfind ⊢
    have hstop : (setting flags source w).outcome w.env.inner (p.account limits w.env) = _ :=
      Setting.outcome_of_halt hfind
    have hrun : p.exec limits flags.tracing (opening flags source w) = _ :=
      (p.exec_eq_outcome limits flags.tracing (opening flags source w)).trans hstop
    simp only [run, hrun]
    rfl

/-- Flags change nothing but what is shown before a unit runs and what is noted: it has the same
result, leaves the same environment and prints the same, unless there is a call that is to be noted
and cannot be. A run with notes stops at the first such call; until there it has printed what it
prints without notes. There is none where no calls are noted or all can be. -/
theorem exec_flags (limits : Limits) (flags : Flags) (source : String) (w : World) :
    let ds := deeds limits source w.env
    let plain := exec limits {} source w
    let shown := w.printed ++ display flags source
    let notes := w.trace ++ heading flags source ++ noted flags ds
    (snag? limits flags source w.env = none → ∃ own,
      (endState plain).printed = w.printed ++ own ∧ (endState plain).trace = w.trace ∧
      exec limits flags source w = mapEnd (fun v => ⟨v.env, shown ++ own, notes⟩) plain) ∧
    (∀ d, snag? limits flags source w.env = some d →
      exec limits flags source w = .error (.stopped .unwritable)
        ⟨⟨d.world.env.scopes, w.env.inner⟩, shown ++ d.world.printed, notes⟩) ∧
    ((flags.tracing = true → ∀ d ∈ ds, d.deed.isCall = true → d.deed.isWritable = true) →
      snag? limits flags source w.env = none) := by
  intro ds plain shown notes
  exact ⟨exec_of_no_snag, fun _ => exec_of_snag, snag?_eq_none⟩

/-- A world in which `n` has a value. -/
def withN (v : Value) : World := ⟨Env.initial.define "n" v, "", #[]⟩

/-- A unit with one call, which has the value of `n` as its argument. -/
theorem program_abs : program "abs(n);" = .ok [.expr (.call "abs" [.name "n"])] := by
  rw [program, Tree.ofSource, Scanned.ofString_pieces [(.token .ident, "abs".toList),
    (.token .leftParen, "(".toList), (.token .ident, "n".toList), (.token .rightParen, ")".toList),
    (.token .semicolon, ";".toList)] (by decide) (by decide)]
  with_unfolding_all rfl

/-- The call is the only deed of the unit. -/
theorem deeds_abs (n : Int) : deeds ⟨2, 2⟩ "abs(n);" (withN (.int n)).env =
    [⟨.called (.builtin .abs) [.int n], withN (.int n)⟩] := by
  rw [deeds, program_abs]
  rfl

/-- A call that can be noted is no snag: with all flags, it gives the same as without. -/
theorem exec_flags_writable :
    snag? ⟨2, 2⟩ ⟨true, true, true⟩ "abs(n);" (withN (.int 1)).env = none ∧
      ∃ f, exec ⟨2, 2⟩ ⟨true, true, true⟩ "abs(n);" (withN (.int 1)) =
        mapEnd f (exec ⟨2, 2⟩ {} "abs(n);" (withN (.int 1))) := by
  obtain ⟨hsame, -, hnone⟩ := exec_flags ⟨2, 2⟩ ⟨true, true, true⟩ "abs(n);" (withN (.int 1))
  have hsnag := hnone fun _ d hd _ => by
    rw [deeds_abs, List.mem_singleton] at hd
    rw [hd]
    rw [Deed.isWritable, List.all_cons, List.all_nil, Bool.and_true]
    exact Decimal.isWritable_one
  obtain ⟨own, -, -, hexec⟩ := hsame hsnag
  exact ⟨hsnag, _, hexec⟩

/-- A call with an integer that is too long gives its value without notes, and stops the unit where
calls are noted. -/
theorem exec_tracing_stops :
    (∃ w, exec ⟨2, 2⟩ {} "abs(n);" (withN (.int Decimal.unwritable)) =
      .ok (.value (.int Decimal.unwritable)) w) ∧
    ∃ w, exec ⟨2, 2⟩ { tracing := true } "abs(n);" (withN (.int Decimal.unwritable)) =
      .error (.stopped .unwritable) w := by
  have hplain (n : Int) : exec ⟨2, 2⟩ {} "abs(n);" (withN (.int n)) =
      .ok (.value (.int n.natAbs)) (withN (.int n)) := by
    rw [exec_eq_opening, opening_none, program_abs]
    rfl
  have htraced (n : Int) (h : Decimal.isWritable n = false) :
      ∃ w, exec ⟨2, 2⟩ { tracing := true } "abs(n);" (withN (.int n)) =
        .error (.stopped .unwritable) w := by
    have hdeeds := deeds_abs n
    simp only [deeds, program_abs] at hdeeds
    obtain ⟨w, hw⟩ := (Program.exec_unwritable_iff ⟨2, 2⟩ true [.expr (.call "abs" [.name "n"])]
      (opening { tracing := true } "abs(n);" (withN (.int n)))).2
      ⟨⟨.called (.builtin .abs) [.int n], withN (.int n)⟩, by simp [opening, hdeeds],
        by simp [Deed.stops, Deed.isWorded, Deed.isWritable, Value.isWritable, h]⟩
    refine ⟨w, ?_⟩
    simp only [exec_eq_opening, program_abs, run, hw]
  refine ⟨⟨withN (.int Decimal.unwritable), ?_⟩, htraced _ ?_⟩
  · rw [hplain, Int.natAbs_natCast]
  · rw [← Bool.not_eq_true, Decimal.isWritable_iff, Int.natAbs_natCast]
    exact Nat.lt_irrefl _

end Source

end Lox
