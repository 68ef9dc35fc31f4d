import Lox.Proofs.Record

/-!
# Forgetting the history

Recorded evaluation does what evaluation does: without its history, a recorded run ends in the same
result and the same world. The machines of both simulate each other, one lemma an operation.
-/

namespace Lox

namespace Recorded

/-- The result of a recorded run without its history. -/
def forget {ε α : Type} : EStateM.Result ε Run α → EStateM.Result ε World α
  | .ok a r => .ok a r.world
  | .error s r => .error s r.world

/-- A recorded step is a step of evaluation with a history. -/
def Erases {α : Type} (act : Recorded α) (plain : Eval α) : Prop :=
  ∀ r, forget (act r) = plain r.world

private theorem erases_pure {α : Type} (a : α) : Erases (pure a) (pure a) := fun _ => rfl

private theorem erases_throw {α : Type} (s : Stop) :
    Erases (throw s : Recorded α) (throw s) := fun _ => rfl

private theorem erases_bind {α β : Type} {act : Recorded α} {plain : Eval α}
    {next : α → Recorded β} {plainNext : α → Eval β} (h : Erases act plain)
    (hnext : ∀ a, Erases (next a) (plainNext a)) : Erases (act >>= next) (plain >>= plainNext) := by
  intro r
  have hr := h r
  simp only [bind, EStateM.bind]
  rw [← hr]
  cases act r with
  | ok a r' => exact hnext a r'
  | error s r' => rfl

private theorem erases_ofEval {α : Type} (act : Eval α) : Erases (ofEval act) act := by
  intro r
  simp only [ofEval]
  cases act r.world <;> rfl

private theorem erases_marked {act : Recorded Unit} {plain : Eval Unit} (h : Erases act plain)
    (event : Event) : Erases (do act; mark event) plain := by
  intro r
  have hr := h r
  simp only [bind, EStateM.bind]
  rw [← hr]
  cases act r <;> rfl

private theorem erases_define (x : String) (v : Value) :
    Erases (define x v) (Eval.define x v) := erases_marked (erases_ofEval _) _

private theorem erases_assign (x : String) (v : Value) :
    Erases (assign x v) (Eval.assign x v) := erases_marked (erases_ofEval _) _

private theorem erases_enter (l : Layer) : Erases (enter l) (Eval.enter l.push) :=
  erases_marked (erases_ofEval _) _

private theorem erases_leave (l : Layer) : Erases (leave l) Eval.leave :=
  erases_marked (erases_ofEval _) _

private theorem erases_within {α : Type} (layer : Env → Layer) {push : Env → Env}
    (hpush : ∀ e, (layer e).push = push) {act : Recorded α} {plain : Eval α}
    (h : Erases act plain) : Erases (within layer act) (Eval.within push plain) := by
  intro r
  have hin := erases_bind (erases_enter (layer r.world.env)) (fun _ => h) r
  simp only [within, bracket, Eval.within]
  rw [hpush] at hin
  rw [← hin]
  cases (do enter (layer r.world.env); act : Recorded α) r with
  | ok a r' => exact erases_bind (erases_leave _) (fun _ => erases_pure a) r'
  | error s r' => exact erases_bind (erases_leave _) (fun _ => erases_throw s) r'

private theorem erases_block {act : Recorded Flow} {plain : Eval Flow} (h : Erases act plain) :
    Erases (within Layer.forBlock act) (Eval.within Env.push plain) :=
  erases_within Layer.forBlock (fun _ => rfl) h

private theorem erases_declare (name : String) (params : List String) (body : Block) :
    Erases (declare name params body)
      (do let closure ← Eval.capture
          Eval.define name (.func (.user name params body closure))) := by
  refine erases_bind (erases_ofEval _) fun closure r => ?_
  exact erases_define _ _ ⟨r.world, _ :: r.past⟩

end Recorded

open Recorded

/-- Recording goes along with evaluation. -/
def Machine.erasing (tracing : Bool) : Simulation (.record tracing) (.eval tracing) where
  rel := Erases
  pure := erases_pure
  bind := erases_bind
  tooDeep := erases_throw _
  exhausted := erases_throw _
  raise f := erases_ofEval (Eval.raise f)
  ask _ _ := erases_ofEval _
  give := erases_pure
  lookup _ := erases_ofEval _
  define := erases_define
  assign := erases_assign
  declare := erases_declare
  block := erases_block
  print _ := erases_ofEval _
  note _ _ := erases_ofEval _

private theorem Machine.scoped_erasing (tracing : Bool) : (erasing tracing).Scoped where
  parameters := erases_within Layer.forParameters fun _ => rfl
  captured f closure := erases_within (fun _ => .call f closure) fun _ => rfl

section Plain

variable (limits : Limits) (tracing : Bool) (r : Run)

private theorem Recorded.call_erases :
    (Machine.erasing tracing).Calls (Recorded.call limits tracing)
      (Eval.apply (.ofCalls limits.rounds tracing limits.calls)) := by
  rw [← Machine.call_eval]
  exact (Machine.scoped_erasing tracing).calls _ _

/-- The value of an expression, as recorded evaluation gives it. -/
theorem Expr.eval_eq_forget (e : Expr) :
    e.eval (.ofCalls limits.rounds tracing limits.calls) r.world =
      forget (e.record limits tracing r) := by
  rw [← Expr.on_eval tracing]
  exact (Machine.Simulation.expr (Recorded.call_erases limits tracing) e r).symm

/-- How a statement ends, as recorded evaluation gives it. -/
theorem Stmt.exec_eq_forget (s : Stmt) :
    s.exec (.ofCalls limits.rounds tracing limits.calls) r.world =
      forget (s.record limits tracing r) := by
  rw [← Stmt.on_eval tracing, Context.rounds_ofCalls]
  exact (Machine.Simulation.stmt (Recorded.call_erases limits tracing) _ s r).symm

/-- How a block ends, as recorded evaluation gives it. -/
theorem Block.exec_eq_forget (body : Block) :
    body.exec (.ofCalls limits.rounds tracing limits.calls) r.world =
      forget (body.record limits tracing r) := by
  rw [Block.exec, ← Stmt.allOn_eval tracing, Context.rounds_ofCalls]
  exact (erases_block (Machine.Simulation.stmts (Recorded.call_erases limits tracing) _ .next body)
    r).symm

/-- The value of a call, as recorded evaluation gives it. -/
theorem Eval.apply_eq_forget (f : Function) (args : List Value) :
    Eval.apply (.ofCalls limits.rounds tracing limits.calls) f args r.world =
      forget (Recorded.call limits tracing f args r) :=
  (Recorded.call_erases limits tracing f args r).symm

/-- How a program ends, as recorded evaluation gives it. -/
theorem Program.exec_eq_forget (p : Program) :
    p.exec limits tracing r.world = forget (p.record limits tracing r) := by
  rw [← Program.on_eval]
  exact ((Machine.scoped_erasing tracing).program limits p r).symm

end Plain

namespace Source

/-- A unit is prepared and then run. -/
theorem exec_eq_prepare (limits : Limits) (job : Job) :
    exec limits job.flags job.source =
      (do let p ← prepare job; run (p.exec limits job.flags.tracing)) := by
  simp only [exec, prepare, bind_assoc, pure_bind]

-- A stage that shows something at most, and does not run the program.
private def Shows {α : Type} (act : Stage α) : Prop :=
  ∀ w, (endState (act w)).env = w.env ∧ ∀ s w', act w ≠ .error (.stopped s) w'

private theorem ok_ne_stopped {α : Type} {a : α} {w w' : World} {s : Stop} :
    (.ok a w : EStateM.Result Failure World α) ≠ .error (.stopped s) w' := nofun

private theorem shows_pure {α : Type} (a : α) : Shows (pure a) :=
  fun _ => ⟨rfl, fun _ _ => ok_ne_stopped⟩

private theorem shows_bind {α β : Type} {act : Stage α} {next : α → Stage β} (h : Shows act)
    (hnext : ∀ a, Shows (next a)) : Shows (act >>= next) := by
  intro w
  have hw := h w
  simp only [bind, EStateM.bind]
  cases hact : act w with
  | error failure w' =>
    rw [hact] at hw
    refine ⟨hw.1, fun s w'' h => ?_⟩
    obtain ⟨rfl, rfl⟩ := EStateM.Result.error.inj h
    exact hw.2 s w' rfl
  | ok a w' =>
    rw [hact] at hw
    obtain ⟨henv, hstop⟩ := hnext a w'
    exact ⟨henv.trans hw.1, hstop⟩

private theorem shows_lift {ε α : Type} {wrap : ε → Failure} (hwrap : ∀ e s, wrap e ≠ .stopped s)
    (result : Except ε α) : Shows (lift wrap result) := by
  intro w
  cases result with
  | ok a => exact shows_pure a w
  | error e => exact ⟨rfl, fun s w' h => hwrap e s (EStateM.Result.error.inj h).1⟩

private theorem shows_run_if (b : Bool) {act : Eval Unit}
    (hact : ∀ w, ∃ w', act w = .ok () w' ∧ w'.env = w.env) :
    Shows (if b then run act else pure ()) := by
  intro w
  cases b with
  | false => exact shows_pure () w
  | true =>
    obtain ⟨w', hw, henv⟩ := hact w
    simp only [if_true, run, hw]
    exact ⟨henv, fun _ _ => ok_ne_stopped⟩

private theorem write_shows (text : String) (w : World) :
    ∃ w', Eval.write text w = .ok () w' ∧ w'.env = w.env := ⟨_, rfl, rfl⟩

private theorem note_shows (line : String) (w : World) :
    ∃ w', Eval.note line w = .ok () w' ∧ w'.env = w.env := ⟨_, rfl, rfl⟩

private theorem shows_prepare (job : Job) : Shows (prepare job) := by
  refine shows_bind (shows_lift ?_ _) fun t => ?_
  · exact fun _ _ => nofun
  refine shows_bind (shows_run_if _ (write_shows (t.outline ++ "\n"))) fun _ => ?_
  refine shows_bind (shows_lift ?_ _) fun p => ?_
  · exact fun _ _ => nofun
  refine shows_bind (shows_run_if _ (note_shows _)) fun _ => ?_
  exact shows_bind (shows_run_if _ (write_shows p.dump)) fun _ => shows_pure p

/-- Before a unit runs it leaves the environment alone. -/
theorem env_prepare (job : Job) (w : World) : (endState (prepare job w)).env = w.env :=
  (shows_prepare job w).1

/-- Before a unit runs it cannot stop the way that runs do. -/
theorem prepare_ne_stopped (job : Job) (w : World) (s : Stop) (w' : World) :
    prepare job w ≠ .error (.stopped s) w' := (shows_prepare job w).2 s w'

private theorem exists_run_if (b : Bool) {act : Eval Unit} (hact : ∀ w, ∃ w', act w = .ok () w')
    (w : World) : ∃ w', (if b then run act else pure () : Stage Unit) w = .ok () w' := by
  cases b with
  | false => exact ⟨w, rfl⟩
  | true =>
    obtain ⟨w', hw⟩ := hact w
    exact ⟨w', by simp only [if_true, run, hw]⟩

/-- Before a unit runs it becomes the program that its source text is, or fails as that does. -/
theorem prepare_cases (job : Job) (w : World) :
    (∃ p w', program job.source = .ok p ∧ prepare job w = .ok p w') ∨
      ∃ failure w', program job.source = .error failure ∧ prepare job w = .error failure w' := by
  unfold program prepare
  cases Tree.ofSource job.source with
  | error e => exact .inr ⟨.syntaxError e, w, rfl, rfl⟩
  | ok t =>
    obtain ⟨w₁, hw₁⟩ : ∃ w', showTree job.flags t w = .ok () w' :=
      exists_run_if _ (fun _ => ⟨_, rfl⟩) w
    cases hp : t.toProgram with
    | error d =>
      refine .inr ⟨.defect d, w₁, ?_, ?_⟩
      · simp only [hp]
      · simp only [bind, EStateM.bind, lift, pure, EStateM.pure, hw₁, hp]
        rfl
    | ok p =>
      obtain ⟨w₂, hw₂⟩ : ∃ w', noteProgram job.flags p w₁ = .ok () w' :=
        exists_run_if _ (fun _ => ⟨_, rfl⟩) w₁
      obtain ⟨w₃, hw₃⟩ : ∃ w', showDump job.flags p w₂ = .ok () w' :=
        exists_run_if _ (fun _ => ⟨_, rfl⟩) w₂
      refine .inl ⟨p, w₃, ?_, ?_⟩
      · simp only [hp]
      · simp only [bind, EStateM.bind, lift, pure, EStateM.pure, hw₁, hp, hw₂, hw₃]

/-- Without its history, the recorded run of a unit is the run of the unit. -/
theorem forget_record (limits : Limits) (job : Job) (r : Run) :
    forget (record limits job r) = exec limits job.flags job.source r.world := by
  rw [exec_eq_prepare]
  simp only [record, bind, EStateM.bind]
  cases prepare job r.world with
  | error failure w => rfl
  | ok p w =>
    have h := p.exec_eq_forget limits job.flags.tracing ⟨w, r.past⟩
    simp only [run]
    rw [h]
    cases p.record limits job.flags.tracing ⟨w, r.past⟩ <;> rfl

/-- A recorded run of units ends in the world in which the run of the units ends. -/
theorem world_recordAll (limits : Limits) (jobs : List Job) (r : Run) :
    (recordAll limits jobs r).world = execAll limits jobs r.world := by
  induction jobs generalizing r with
  | nil => rfl
  | cons job jobs ih =>
    rw [recordAll, execAll, ih, ← forget_record]
    cases record limits job r <;> rfl

end Source

end Lox
