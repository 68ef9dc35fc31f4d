import Lox.Proofs.Building
import Lox.Proofs.Discipline
import Lox.Proofs.Erasure
import Lox.Proofs.Joining
import Lox.Proofs.Scopes

/-!
# Safety

A program that is read from source text never trips over its own shape. All its expressions are
there, and so are those in the functions that it declares; then a run ends with a value, or with an
error that the program itself can be blamed for, or at a limit.
-/

namespace Lox

/-- Whether the values of all scopes are complete. -/
def Env.Complete (e : Env) : Prop :=
  ∀ (id : ScopeId) (x : String) (v : Value), (e.scope id).get? x = some v → v.Complete

/-- At first the values of all scopes are complete. -/
theorem Env.Complete.initial : Env.initial.Complete := All.initial fun _ => trivial

private theorem Value.complete_of_isAtom {v : Value} (h : v.isAtom = true) : v.Complete := by
  cases v with
  | func f => cases h
  | _ => trivial

/-- Runs keep their environments complete, if their programs are. -/
def Discipline.safety : Discipline where
  holds r := r.env.Complete
  outer r s := s.env.inner = r.env.inner
  inner r s := s.env.inner = r.env.inner
  known _ v := v.Complete
  holes := False
  outer_refl _ := rfl
  outer_trans h h' := h'.trans h
  inner_of_outer h := h
  inner_trans h h' := h'.trans h
  stack h := h
  known_mono _ h := h
  known_step _ _ h := h
  known_atom _ _ h := Value.complete_of_isAtom h
  known_builtin _ _ := trivial
  known_get h hx := Env.All.of_get? h hx
  known_complete h := .inr h
  shown h henv _ := ⟨henv ▸ h, by rw [henv]⟩
  bound h hv := ⟨Env.All.putIn h _ _ hv, rfl⟩
  assigned h hv _ := ⟨Env.All.putIn h _ _ hv, rfl⟩
  declared h hf _ := ⟨Env.All.snapshot h, rfl, hf.resolve_left id⟩
  opened h _ := Env.All.push h
  closed _ _ _ _ hs := ⟨hs, rfl⟩
  begun h _ _ := h
  ended _ _ _ _ hs := ⟨hs, rfl⟩

/-- Whether the value that a statement ends with, if any, is complete. -/
def Flow.Complete : Flow → Prop
  | next => True
  | value v | returned v => v.Complete

/-- An evaluation ends with a result as `P` says, or stops regularly; all functions in scopes are
complete after it. -/
def Safe {α : Type} (P : α → Prop) : EStateM.Result Stop World α → Prop
  | .ok a w => w.env.Complete ∧ P a
  | .error s w => w.env.Complete ∧ s.Regular

private theorem safe_forget {α : Type} {rel : Run → Run → Prop} {P : α → Run → Prop}
    {Q : α → Prop} {r : Run} {res : EStateM.Result Stop Run α}
    (h : Discipline.safety.Ends rel P r res) (hQ : ∀ a s, P a s → Q a) :
    Safe Q (Recorded.forget res) := by
  cases res with
  | ok a s => exact ⟨h.1, hQ a s h.2.2⟩
  | error stop s =>
    obtain ⟨hs, -, t, -, harises⟩ := h
    rcases harises.regular with hregular | ⟨hfalse, -⟩
    · exact ⟨hs, hregular⟩
    · exact hfalse.elim

private theorem Flow.complete_of_known {flow : Flow} {r : Run}
    (h : Discipline.safety.KnownFlow flow r) : flow.Complete := by
  cases flow with
  | next => trivial
  | value v | returned v => exact h

section Kinds

variable (limits : Limits) (tracing : Bool) {w : World}

private theorem Expr.safe (hw : w.env.Complete) {e : Expr} (he : e.Complete) :
    Safe Value.Complete (e.eval (.ofCalls limits.rounds tracing limits.calls) w) := by
  rw [Expr.eval_eq_forget limits tracing ⟨w, []⟩]
  exact safe_forget (Discipline.ends_expr (D := .safety) (r := ⟨w, []⟩)
    (Discipline.calls_call limits tracing) e (.inr he) hw) fun _ _ => id

private theorem Stmt.safe (hw : w.env.Complete) {s : Stmt} (hs : s.Complete) :
    Safe Flow.Complete (s.exec (.ofCalls limits.rounds tracing limits.calls) w) := by
  rw [Stmt.exec_eq_forget limits tracing ⟨w, []⟩]
  exact safe_forget (Discipline.ends_stmt (D := .safety) (r := ⟨w, []⟩)
    (Discipline.calls_call limits tracing) s (.inr hs) hw) fun _ _ => Flow.complete_of_known

private theorem Block.safe (hw : w.env.Complete) {body : Block} (hbody : Stmt.AllComplete body) :
    Safe Flow.Complete (body.exec (.ofCalls limits.rounds tracing limits.calls) w) := by
  rw [Block.exec_eq_forget limits tracing ⟨w, []⟩]
  exact safe_forget (Discipline.ends_body (D := .safety) limits tracing (r := ⟨w, []⟩)
    (.inr hbody) hw) fun _ _ => Flow.complete_of_known

private theorem Eval.apply_safe (hw : w.env.Complete) {f : Function} (hf : f.Complete)
    (args : List Value) (hargs : ∀ v ∈ args, v.Complete) :
    Safe Value.Complete (Eval.apply (.ofCalls limits.rounds tracing limits.calls) f args w) := by
  rw [Eval.apply_eq_forget limits tracing ⟨w, []⟩]
  exact safe_forget (Discipline.calls_call (D := .safety) limits tracing (r := ⟨w, []⟩)
    hw hf hargs) fun _ _ => id

private theorem Program.safe (hw : w.env.Complete) {p : Program} (hp : p.Complete) :
    Safe Flow.Complete (p.exec limits tracing w) := by
  rw [Program.exec_eq_forget limits tracing ⟨w, []⟩]
  exact safe_forget (Discipline.ends_program (D := .safety) (r := ⟨w, []⟩) limits tracing (.inr hp)
    hw) fun _ _ => Flow.complete_of_known

end Kinds

/-! ### Units -/

/-- Whether a unit of source text can fail like this. -/
def Failure.Regular : Failure → Prop
  | syntaxError _ => True
  | defect d => ∃ n, d = .longInteger n
  | stopped s => s.Regular

namespace Source

/-- The program of a source text is complete, and no other defect is found in its tree than an
integer that is too long. -/
theorem complete_toProgram {source : String} {t : Tree} (h : Tree.ofSource source = .ok t) :
    (∀ p, t.toProgram = .ok p → p.Complete) ∧
      ∀ d, t.toProgram = .error d → (Failure.defect d).Regular := by
  have hbuilds := Tree.builds_toProgram h
  constructor
  · intro p hp
    rw [hp] at hbuilds
    exact hbuilds.of_ok
  · intro d hd
    rw [hd] at hbuilds
    obtain ⟨n, -, rfl⟩ := hbuilds.of_error
    exact ⟨n, rfl⟩

/-- The program of a source text is complete. -/
theorem complete_program {source : String} {p : Program} (h : program source = .ok p) :
    p.Complete := by
  rw [program] at h
  split at h
  · cases h
  · rename_i t ht
    split at h
    · cases h
    · rename_i q hq
      cases h
      exact (complete_toProgram ht).1 _ hq

-- A stage has a result as `P` says, or fails regularly.
private def Gives {α : Type} (P : α → Prop) (act : Stage α) : Prop :=
  ∀ w, match act w with
    | .ok a _ => P a
    | .error failure _ => failure.Regular

private theorem gives_bind {α β : Type} {P : α → Prop} {Q : β → Prop} {act : Stage α}
    {next : α → Stage β} (h : Gives P act) (hnext : ∀ a, P a → Gives Q (next a)) :
    Gives Q (act >>= next) := by
  intro w
  have hw := h w
  simp only [bind, EStateM.bind]
  cases hact : act w with
  | error failure w' =>
    rw [hact] at hw
    exact hw
  | ok a w' =>
    rw [hact] at hw
    exact hnext a hw w'

private theorem gives_lift {ε α : Type} {P : α → Prop} {wrap : ε → Failure}
    {result : Except ε α} (hok : ∀ a, result = .ok a → P a)
    (herror : ∀ e, result = .error e → (wrap e).Regular) : Gives P (lift wrap result) := by
  intro w
  cases result with
  | ok a => exact hok a rfl
  | error e => exact herror e rfl

private theorem gives_run_if (b : Bool) {act : Eval Unit} (hact : ∀ w, ∃ w', act w = .ok () w') :
    Gives (fun _ => True) (if b then run act else pure ()) := by
  intro w
  cases b with
  | false => trivial
  | true =>
    obtain ⟨w', hw⟩ := hact w
    simp only [if_true, run, hw]

private theorem gives_prepare (job : Job) : Gives Program.Complete (prepare job) := by
  refine gives_bind (P := fun t => Tree.ofSource job.source = .ok t)
    (gives_lift (fun _ => id) fun _ _ => trivial) fun t ht => ?_
  obtain ⟨hcomplete, hdefect⟩ := complete_toProgram ht
  refine gives_bind (gives_run_if _ fun _ => ⟨_, rfl⟩) fun _ _ => ?_
  refine gives_bind (gives_lift hcomplete hdefect) fun p hp => ?_
  refine gives_bind (gives_run_if _ fun _ => ⟨_, rfl⟩) fun _ _ => ?_
  exact gives_bind (gives_run_if _ fun _ => ⟨_, rfl⟩) fun _ _ _ => hp

/-- A unit ends regularly. -/
theorem safe_exec (limits : Limits) (job : Job) {w : World} (hw : w.env.Complete) :
    (endState (exec limits job.flags job.source w)).env.Complete ∧
      ∀ failure w', exec limits job.flags job.source w = .error failure w' → failure.Regular := by
  rw [exec_eq_prepare]
  have hprepare := gives_prepare job w
  have henv := env_prepare job w
  simp only [bind, EStateM.bind]
  cases hp : prepare job w with
  | error failure w' =>
    rw [hp] at hprepare henv
    have hw' : w'.env.Complete := (show w'.env = w.env from henv) ▸ hw
    refine ⟨hw', fun failure' w'' h => ?_⟩
    cases h
    exact hprepare
  | ok p w' =>
    rw [hp] at hprepare henv
    have hw' : w'.env.Complete := (show w'.env = w.env from henv) ▸ hw
    have hsafe := Program.safe limits job.flags.tracing hw' hprepare
    simp only [run]
    cases hres : p.exec limits job.flags.tracing w' with
    | ok flow w'' =>
      rw [hres] at hsafe
      refine ⟨hsafe.1, fun failure w₃ h => ?_⟩
      cases h
    | error stop w'' =>
      rw [hres] at hsafe
      refine ⟨hsafe.1, fun failure w₃ h => ?_⟩
      cases h
      exact hsafe.2

private theorem complete_execAll (limits : Limits) (jobs : List Job) {w : World}
    (hw : w.env.Complete) : (execAll limits jobs w).env.Complete := by
  induction jobs generalizing w with
  | nil => exact hw
  | cons job jobs ih => exact ih (safe_exec limits job hw).1

end Source

/-- Wherever all functions in scopes are complete, each kind of evaluation of complete programs ends
with a result, and with a value where one is asked for, or it stops regularly. So does every unit of
source text after any others, whatever became of these: it is no program, or it has an integer that
is too long, or it stops for a fault that is blamed on the program, or at a limit. -/
theorem evaluation_safe (limits : Limits) :
    (∀ (tracing : Bool) (w : World), w.env.Complete →
      (∀ e : Expr, e.Complete →
        Safe Value.Complete (e.eval (.ofCalls limits.rounds tracing limits.calls) w)) ∧
      (∀ s : Stmt, s.Complete →
        Safe Flow.Complete (s.exec (.ofCalls limits.rounds tracing limits.calls) w)) ∧
      (∀ body : Block, Stmt.AllComplete body →
        Safe Flow.Complete (body.exec (.ofCalls limits.rounds tracing limits.calls) w)) ∧
      (∀ (f : Function) (args : List Value), f.Complete → (∀ v ∈ args, v.Complete) →
        Safe Value.Complete
          (Eval.apply (.ofCalls limits.rounds tracing limits.calls) f args w)) ∧
      (∀ p : Program, p.Complete → Safe Flow.Complete (p.exec limits tracing w))) ∧
    (∀ (jobs : List Source.Job) (job : Source.Job),
      (Source.execAll limits jobs .start).env.Complete ∧
      (∀ p : Program, Source.program job.source = .ok p → p.Complete) ∧
      ∀ (failure : Failure) (w' : World),
        Source.exec limits job.flags job.source (Source.execAll limits jobs .start) =
          .error failure w' → failure.Regular) ∧
    ∀ (f : Fault) (style : Text.Style), f.Regular → (f.notice style).internal = false := by
  refine ⟨fun tracing w hw => ⟨fun _ => Expr.safe limits tracing hw,
    fun _ => Stmt.safe limits tracing hw, fun _ => Block.safe limits tracing hw,
    fun _ args hf => Eval.apply_safe limits tracing hw hf args,
    fun _ => Program.safe limits tracing hw⟩,
    fun jobs job => ?_, fun _ style h => h.internal_notice style⟩
  have hw := Source.complete_execAll limits jobs (w := .start) Env.Complete.initial
  exact ⟨hw, fun _ => Source.complete_program, (Source.safe_exec limits job hw).2⟩

/-- Where one unit has declared a function, the next one calls it and then reads a name that nothing
binds, which is a fault of the program; the call itself is safe. -/
theorem evaluation_safe_called :
    let w := Source.execAll ⟨2, 2⟩ [⟨{}, "fun f ( n ) \x7b return n ; \x7d "⟩] .start
    w.env.Complete ∧
    Safe Value.Complete ((Expr.call "f" [.literal (.bool true)]).eval (.ofCalls 2 false 2) w) ∧
    (∃ w', (Expr.call "f" [.literal (.bool true)]).eval (.ofCalls 2 false 2) w =
      .ok (.bool true) w') ∧
    (∃ w', Source.exec ⟨2, 2⟩ {} "var y = f ( true ) ; x ; " w =
      .error (.stopped (.fault (.undefinedVariable "x"))) w') ∧
    (Failure.stopped (.fault (.undefinedVariable "x"))).Regular := by
  intro w
  have hdeclares : Source.program "fun f ( n ) \x7b return n ; \x7d " =
      .ok [.func "f" ["n"] [.ret (some (.name "n"))]] :=
    Source.program_of_writable (p := [.func "f" ["n"] [.ret (some (.name "n"))]])
      ⟨⟨rfl, by decide, rfl, trivial⟩, trivial⟩
  have hfails : Source.program "var y = f ( true ) ; x ; " =
      .ok [.var "y" (some (.call "f" [.literal (.bool true)])), .expr (.name "x")] :=
    Source.program_of_writable
      (p := [.var "y" (some (.call "f" [.literal (.bool true)])), .expr (.name "x")])
      ⟨⟨rfl, rfl, trivial, trivial⟩, rfl, trivial⟩
  have hw : w = endState (Program.exec ⟨2, 2⟩ false
      [.func "f" ["n"] [.ret (some (.name "n"))]] .start) :=
    Source.execAll_cons_of_program _ hdeclares [] .start
  obtain ⟨w', hunit⟩ : ∃ w', Source.exec ⟨2, 2⟩ {} "var y = f ( true ) ; x ; " w =
      .error (.stopped (.fault (.undefinedVariable "x"))) w' := by
    rw [Source.exec_of_program _ hfails, hw]
    exact ⟨_, rfl⟩
  obtain ⟨hkinds, hunits, -⟩ := evaluation_safe ⟨2, 2⟩
  obtain ⟨hcomplete, -, hregular⟩ := hunits [⟨{}, "fun f ( n ) \x7b return n ; \x7d "⟩]
    ⟨{}, "var y = f ( true ) ; x ; "⟩
  have hcall := (hkinds false w hcomplete).1 (.call "f" [.literal (.bool true)]) ⟨trivial, trivial⟩
  refine ⟨hcomplete, hcall, ?_, ⟨w', hunit⟩, hregular _ _ hunit⟩
  rw [hw]
  exact ⟨_, rfl⟩

end Lox
