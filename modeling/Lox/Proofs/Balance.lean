import Lox.Proofs.Discipline
import Lox.Proofs.Erasure
import Lox.Proofs.Scopes

/-!
# Balance of the scope stack

However an evaluation ends, the scopes on the stack are those that lay there before it, in the same
order. So between units only the global scope is open, and no run ever tries to leave it.
-/

namespace Lox

/-- No run stops for want of a scope to leave. -/
theorem Stop.Arises.ne_lastScope {holes : Prop} {known : Value → Prop} {s : Stop}
    (h : s.Arises holes known) : s ≠ .fault .lastScope := by
  intro hs
  subst hs
  rcases h.regular with h | ⟨-, h⟩
  · exact h
  · cases h

/-- The stack is the same after as before, and scopes that exist go on to exist. -/
def Run.SameStack (r s : Run) : Prop :=
  s.env.inner = r.env.inner ∧ r.env.scopes.size ≤ s.env.scopes.size

namespace Run.SameStack

private theorem refl (r : Run) : r.SameStack r := ⟨rfl, Nat.le_refl _⟩

private theorem trans {r s t : Run} (h : r.SameStack s) (h' : s.SameStack t) : r.SameStack t :=
  ⟨h'.1.trans h.1, Nat.le_trans h.2 h'.2⟩

private theorem cut {r s : Run} {event : Event} {e : Env} (h : e.scopes.size ≤ s.env.scopes.size)
    (he : r.env.scopes.size ≤ e.scopes.size) :
    r.SameStack (s.step event ⟨s.env.scopes, r.env.inner⟩) :=
  ⟨rfl, Nat.le_trans he h⟩

end Run.SameStack

/-- Nothing is asked of a run but that it keeps its stack. -/
def Discipline.balance : Discipline where
  holds _ := True
  outer := Run.SameStack
  inner := Run.SameStack
  known _ _ := True
  holes := True
  known_complete _ := .inl trivial
  outer_refl := Run.SameStack.refl
  outer_trans := Run.SameStack.trans
  inner_of_outer h := h
  inner_trans := Run.SameStack.trans
  stack h := h.1
  known_mono _ _ := trivial
  known_step _ _ _ := trivial
  known_atom _ _ _ := trivial
  known_builtin _ _ := trivial
  known_get _ _ := trivial
  shown {r s} _ henv _ := ⟨trivial, by rw [Run.SameStack, henv]; exact ⟨rfl, Nat.le_refl _⟩⟩
  bound _ _ := ⟨trivial, rfl, Nat.le_of_eq (Env.size_define ..).symm⟩
  assigned _ _ _ := ⟨trivial, rfl, Nat.le_of_eq (Env.size_putIn ..).symm⟩
  declared {r f} _ _ _ := by
    refine ⟨trivial, ⟨rfl, ?_⟩, trivial⟩
    rw [Run.env_step, Env.size_snapshot]
    exact Nat.le_succ _
  opened _ _ := trivial
  closed {r s l} _ _ _ hrs _ := by
    refine ⟨trivial, .cut hrs.2 ?_⟩
    rw [Run.env_step, Env.size_push]
    exact Nat.le_succ _
  begun _ _ _ := trivial
  ended _ _ _ hrs _ := ⟨trivial, .cut hrs.2 (Nat.le_refl _)⟩

/-- An evaluation that began in the world `w` has ended with the same scopes on the stack in the
same order, all scopes that there were still exist, and it did not fail for want of a scope. -/
structure Balanced {α : Type} (w : World) (res : EStateM.Result Stop World α) : Prop where
  stack : (endState res).env.stack = w.env.stack
  size : w.env.scopes.size ≤ (endState res).env.scopes.size
  noUnderflow : ∀ w', res ≠ .error (.fault .lastScope) w'

private theorem balanced_forget {α : Type} {rel : Run → Run → Prop} {P : α → Run → Prop} {r : Run}
    {res : EStateM.Result Stop Run α} (hrel : ∀ {s}, rel r s → r.SameStack s)
    (h : Discipline.balance.Ends rel P r res) : Balanced r.world (Recorded.forget res) := by
  have hstack {s : Run} (hs : r.SameStack s) : s.world.env.stack = r.world.env.stack := by
    rw [Env.stack, show s.world.env.inner = r.world.env.inner from hs.1, Env.stack]
  cases res with
  | ok a s =>
    refine ⟨hstack (hrel h.2.1), (hrel h.2.1).2, ?_⟩
    intro w' hw
    cases hw
  | error stop s =>
    obtain ⟨-, hs, t, -, harises⟩ := h
    refine ⟨hstack (hrel hs), (hrel hs).2, fun w' hw => ?_⟩
    exact harises.ne_lastScope (EStateM.Result.error.inj hw).1

section Kinds

variable (limits : Limits) (tracing : Bool) (w : World)

private theorem Expr.balanced (e : Expr) :
    Balanced w (e.eval (.ofCalls limits.rounds tracing limits.calls) w) := by
  rw [Expr.eval_eq_forget limits tracing ⟨w, []⟩]
  exact balanced_forget (r := ⟨w, []⟩) id
    (Discipline.ends_expr (Discipline.calls_call limits tracing) e (.inl trivial) trivial)

private theorem Stmt.balanced (s : Stmt) :
    Balanced w (s.exec (.ofCalls limits.rounds tracing limits.calls) w) := by
  rw [Stmt.exec_eq_forget limits tracing ⟨w, []⟩]
  exact balanced_forget (r := ⟨w, []⟩) id
    (Discipline.ends_stmt (Discipline.calls_call limits tracing) s (.inl trivial) trivial)

private theorem Block.balanced (body : Block) :
    Balanced w (body.exec (.ofCalls limits.rounds tracing limits.calls) w) := by
  rw [Block.exec_eq_forget limits tracing ⟨w, []⟩]
  exact balanced_forget (r := ⟨w, []⟩) id
    (Discipline.ends_body limits tracing (.inl trivial) trivial)

private theorem Eval.apply_balanced (f : Function) (args : List Value) :
    Balanced w (Eval.apply (.ofCalls limits.rounds tracing limits.calls) f args w) := by
  rw [Eval.apply_eq_forget limits tracing ⟨w, []⟩]
  exact balanced_forget (r := ⟨w, []⟩) id
    (Discipline.calls_call limits tracing trivial trivial fun _ _ => trivial)

private theorem Program.balanced (p : Program) : Balanced w (p.exec limits tracing w) := by
  rw [Program.exec_eq_forget limits tracing ⟨w, []⟩]
  exact balanced_forget (r := ⟨w, []⟩) id
    (Discipline.ends_program limits tracing (.inl trivial) trivial)

end Kinds

namespace Source

/-- No run of a unit changes the stack or tries to leave the global scope. -/
theorem balanced_exec (limits : Limits) (job : Job) (w : World) :
    (endState (exec limits job.flags job.source w)).env.stack = w.env.stack ∧
      ∀ w', exec limits job.flags job.source w ≠ .error (.stopped (.fault .lastScope)) w' := by
  rw [exec_eq_prepare]
  have henv := env_prepare job w
  simp only [bind, EStateM.bind]
  cases hp : prepare job w with
  | error failure w' =>
    rw [hp] at henv
    refine ⟨congrArg Env.stack henv, ?_⟩
    rintro w'' h
    obtain ⟨rfl, -⟩ := EStateM.Result.error.inj h
    exact prepare_ne_stopped job w _ w' hp
  | ok p w' =>
    rw [hp] at henv
    have hb := Program.balanced limits job.flags.tracing w' p
    have hstack : w'.env.stack = w.env.stack := congrArg Env.stack henv
    simp only [run]
    cases hres : p.exec limits job.flags.tracing w' with
    | ok flow w'' =>
      rw [hres] at hb
      refine ⟨hb.stack.trans hstack, ?_⟩
      intro w₃ h
      cases h
    | error stop w'' =>
      rw [hres] at hb
      refine ⟨hb.stack.trans hstack, ?_⟩
      rintro w₃ h
      obtain ⟨hstop, -⟩ := EStateM.Result.error.inj h
      exact hb.noUnderflow w'' (by rw [Failure.stopped.inj hstop])

/-- No run of units changes the stack. -/
theorem stack_execAll (limits : Limits) (jobs : List Job) (w : World) :
    (execAll limits jobs w).env.stack = w.env.stack := by
  induction jobs generalizing w with
  | nil => rfl
  | cons job jobs ih => rw [execAll, ih, (balanced_exec limits job w).1]

end Source

/-- Every evaluation leaves the scope stack as it found it, whatever it evaluates and however it
ends. So after any units, whatever became of them, only the global scope is open, and no unit fails
because it leaves the global scope. -/
theorem evaluation_balanced (limits : Limits) :
    (∀ (tracing : Bool) (w : World),
      (∀ e : Expr, Balanced w (e.eval (.ofCalls limits.rounds tracing limits.calls) w)) ∧
      (∀ s : Stmt, Balanced w (s.exec (.ofCalls limits.rounds tracing limits.calls) w)) ∧
      (∀ body : Block,
        Balanced w (body.exec (.ofCalls limits.rounds tracing limits.calls) w)) ∧
      (∀ (f : Function) (args : List Value),
        Balanced w (Eval.apply (.ofCalls limits.rounds tracing limits.calls) f args w)) ∧
      (∀ p : Program, Balanced w (p.exec limits tracing w))) ∧
    (∀ (jobs : List Source.Job) (job : Source.Job) (w' : World),
      (Source.execAll limits jobs .start).env.depth = 1 ∧
      (Source.execAll limits jobs .start).env.stack = [Env.global] ∧
      Source.exec limits job.flags job.source (Source.execAll limits jobs .start) ≠
        .error (.stopped (.fault .lastScope)) w') := by
  refine ⟨fun tracing w => ⟨Expr.balanced limits tracing w, Stmt.balanced limits tracing w,
    Block.balanced limits tracing w, Eval.apply_balanced limits tracing w,
    Program.balanced limits tracing w⟩, fun jobs job w' => ?_⟩
  have hstack := Source.stack_execAll limits jobs .start
  refine ⟨?_, hstack, (Source.balanced_exec limits job _).2 w'⟩
  rw [← Env.length_stack, hstack]
  rfl

end Lox
