import Lox.Proofs.Captures
import Lox.Proofs.Machine
import Lox.Proofs.Sequences

/-!
# A return as a jump

Evaluation hands a `return` outward from statement to statement. Here a `return` is read as a jump:
it ends whatever is being run, at once, and the nearest call catches it, or the end of the program.
Both readings agree. So nothing of an activation is run after its `return`, however deep it stands
in blocks, branches and loops, and without a `return` a call has the value of its last statement.
-/

namespace Lox

/-- What breaks off a computation in which a `return` jumps. -/
inductive Exit where
  | stopped (s : Stop)
  | returned (v : Value)

/-- A computation in which a `return` jumps. A statement gives the value that it leaves, if it
leaves one. -/
abbrev Jumping := EStateM Exit World

/-- The flow of what was run to its end and has left a value, or none. -/
def Flow.ofResult : Option Value → Flow
  | some v => .value v
  | none => .next

namespace Jumping

/-- A step in which nothing returns. -/
def ofEval {α : Type} (act : Eval α) : Jumping α := fun w =>
  match act w with
  | .ok a w => .ok a w
  | .error s w => .error (.stopped s) w

/-- Runs `act` with one more scope on the stack, and takes that scope away again, also when `act`
jumps. -/
def within {α : Type} (push : Env → Env) (act : Jumping α) : Jumping α :=
  bracket (ofEval (Eval.enter push)) (ofEval Eval.leave) act

/-- Repeats `body` while `test` holds. Only the number of rounds is watched; a jump out of the body
is left to itself. -/
def repeatWhile (test : Eval Bool) (body : Jumping (Option Value)) :
    (rounds : Nat) → Option Value → Jumping (Option Value)
  | 0, _ => throw (.stopped .exhausted)
  | rounds + 1, last => do
    if ← ofEval test then
      let result ← body
      repeatWhile test body rounds result
    else pure last

/-- How a computation ends where jumps are caught. -/
def caught (act : Jumping (Option Value)) : Eval Flow := fun w =>
  match act w with
  | .ok result w => .ok (.ofResult result) w
  | .error (.returned v) w => .ok (.returned v) w
  | .error (.stopped s) w => .error s w

/-- The value of a call that runs this: the one that comes with a jump, else the one that is left at
the end, if any. -/
def callValue (act : Jumping (Option Value)) : Eval Value := fun w =>
  match act w with
  | .ok result w => .ok (result.getD .unit) w
  | .error (.returned v) w => .ok v w
  | .error (.stopped s) w => .error s w

end Jumping

/-- The value of an expression, where functions are called by `call`. -/
def Expr.evalBy (call : Calling Eval) (e : Expr) : Eval Value := e.on (.eval false) call

open Jumping in
mutual

/-- Runs a statement. -/
def Stmt.jump (call : Calling Eval) (rounds : Nat) : Stmt → Jumping (Option Value)
  | .expr e => do
    let v ← ofEval (e.evalBy call)
    pure (some v)
  | .print e => do
    let v ← ofEval (e.evalBy call)
    ofEval (Eval.print v)
    pure none
  | .block body => Jumping.within Env.push (Stmt.jumpAll call rounds none body)
  | .var x none => do
    ofEval (Eval.define x .unit)
    pure none
  | .var x (some e) => do
    let v ← ofEval (e.evalBy call)
    ofEval (Eval.define x v)
    pure none
  | .branch cond yes no => do
    let v ← ofEval (cond.evalBy call)
    if ← ofEval (Eval.lift v.truth) then
      Jumping.within Env.push (Stmt.jumpAll call rounds none yes)
    else Jumping.within Env.push (Stmt.jumpAll call rounds none no)
  | .loop cond body =>
    Jumping.repeatWhile (do let v ← cond.evalBy call; Eval.lift v.truth)
      (Jumping.within Env.push (Stmt.jumpAll call rounds none body)) rounds none
  | .func name params body => do
    let closure ← ofEval Eval.capture
    ofEval (Eval.define name (.func (.user name params body closure)))
    pure none
  | .builtin name fn => do
    ofEval (Eval.define name (.func (.builtin fn)))
    pure none
  | .ret none => throw (.returned .unit)
  | .ret (some e) => do
    let v ← ofEval (e.evalBy call)
    throw (.returned v)
termination_by structural s => s

/-- Runs statements one after the other; `last` is what the one before them has left. -/
def Stmt.jumpAll (call : Calling Eval) (rounds : Nat) (last : Option Value) :
    List Stmt → Jumping (Option Value)
  | [] => pure last
  | s :: ss => do
    let result ← s.jump call rounds
    Stmt.jumpAll call rounds result ss
termination_by structural ss => ss

end

/-- Calls a function that is run by `invoke`, as evaluation calls it. -/
def Calling.of (tracing : Bool) (invoke : Calling Eval) : Calling Eval :=
  (Machine.eval tracing).calling invoke

namespace Jumping

/-- The value of a function for as many arguments as it has parameters. Jumps out of its body are
caught here. -/
def invoke (enter : Block → Jumping (Option Value)) : Calling Eval
  | .builtin fn, args => Eval.lift (fn.apply args)
  | .user _ params body closure, args =>
    callValue (Jumping.within (Env.pushShared closure) (Jumping.within Env.push do
      ofEval (Eval.defineAll params args)
      enter body))

/-- Runs the body of a function in which `calls` more calls may be nested. -/
def enter (rounds : Nat) (tracing : Bool) : (calls : Nat) → Block → Jumping (Option Value)
  | 0, _ => throw (.stopped .tooDeep)
  | calls + 1, body =>
    Jumping.within Env.push
      (Stmt.jumpAll (.of tracing (invoke (enter rounds tracing calls))) rounds none body)

end Jumping

/-- Runs a program in the scope that is innermost. -/
def Program.jump (limits : Limits) (tracing : Bool) (p : Program) : Jumping (Option Value) :=
  Stmt.jumpAll (.of tracing (Jumping.invoke (Jumping.enter limits.rounds tracing limits.calls)))
    limits.rounds none p

/-! ### Both readings agree -/

/-- With the calls of evaluation, expressions have the values that evaluation gives them. -/
theorem Expr.evalBy_apply (ctx : Context) (e : Expr) : e.evalBy (Eval.apply ctx) = e.eval ctx :=
  e.on_eval false ctx

/-- With functions that are run as in evaluation, calls are those of evaluation. -/
theorem Calling.of_invoke (ctx : Context) :
    of ctx.tracing (Eval.invoke ctx) = Eval.apply ctx := by
  rw [of, ← Machine.apply_eval]
  congr 1
  funext f args
  exact (Machine.invoke_eval ctx f args).symm

namespace Jumping

variable {α : Type}

private theorem caught_ofEval_bind (act : Eval α) (next : α → Jumping (Option Value)) :
    caught (ofEval act >>= next) = act >>= fun a => caught (next a) := by
  funext w
  simp only [caught, bind, EStateM.bind, ofEval]
  cases act w <;> rfl

private theorem caught_bind (act : Jumping (Option Value))
    (next : Option Value → Jumping (Option Value)) (after : Flow → Eval Flow)
    (hreturned : ∀ v, after (.returned v) = pure (.returned v))
    (hnext : ∀ result, after (.ofResult result) = caught (next result)) :
    caught (act >>= next) = act.caught >>= after := by
  funext w
  simp only [caught, bind, EStateM.bind]
  cases act w with
  | ok result w' =>
    simp only [hnext]
    rfl
  | error exit w' =>
    cases exit with
    | stopped s => rfl
    | returned v =>
      simp only [hreturned]
      rfl

private theorem caught_within (push : Env → Env) (act : Jumping (Option Value)) :
    caught (Jumping.within push act) = Eval.within push act.caught := by
  funext ⟨env, printed, trace⟩
  simp only [caught, Jumping.within, bracket, Eval.within, bind, EStateM.bind, ofEval, Eval.enter]
  cases act ⟨push env, printed, trace⟩ with
  | ok result w' =>
    obtain ⟨⟨scopes, inner⟩, printed, trace⟩ := w'
    cases inner <;> rfl
  | error exit w' =>
    obtain ⟨⟨scopes, inner⟩, printed, trace⟩ := w'
    cases exit <;> cases inner <;> rfl

private theorem caught_repeatWhile (test : Eval Bool) (body : Jumping (Option Value))
    (rounds : Nat) (last : Option Value) :
    caught (repeatWhile test body rounds last) =
      Eval.repeatWhile test body.caught rounds (.ofResult last) := by
  induction rounds generalizing last with
  | zero => rfl
  | succ rounds ih =>
    rw [repeatWhile, Eval.repeatWhile, caught_ofEval_bind]
    congr 1
    funext holds
    cases holds with
    | false => rfl
    | true =>
      refine caught_bind body _ _ (fun v => rfl) fun result => ?_
      rw [ih]
      cases result <;> rfl

private theorem callValue_eq_caught (act : Jumping (Option Value)) :
    act.callValue = act.caught >>= fun flow => pure flow.callValue := by
  funext w
  simp only [callValue, caught, bind, EStateM.bind]
  cases act w with
  | ok result w' => cases result <;> rfl
  | error exit w' => cases exit <;> rfl

end Jumping

open Jumping in
mutual

/-- A statement does with jumps what it does with flows. -/
theorem Stmt.caught_jump (ctx : Context) (s : Stmt) :
    (s.jump (Eval.apply ctx) ctx.rounds).caught = s.exec ctx := by
  cases s with
  | expr e =>
    simp only [Stmt.jump, Stmt.exec, caught_ofEval_bind, Expr.evalBy_apply]
    rfl
  | print e =>
    simp only [Stmt.jump, Stmt.exec, caught_ofEval_bind, Expr.evalBy_apply]
    rfl
  | block body =>
    simp only [Stmt.jump, Stmt.exec, caught_within, Stmt.caught_jumpAll ctx none body]
    rfl
  | var x init =>
    cases init with
    | none => rfl
    | some e =>
      simp only [Stmt.jump, Stmt.exec, caught_ofEval_bind, Expr.evalBy_apply]
      rfl
  | branch cond yes no =>
    simp only [Stmt.jump, Stmt.exec, caught_ofEval_bind, Expr.evalBy_apply]
    congr 1
    funext v
    congr 1
    funext holds
    cases holds with
    | true => exact (caught_within _ _).trans (by rw [Stmt.caught_jumpAll ctx none yes]; rfl)
    | false => exact (caught_within _ _).trans (by rw [Stmt.caught_jumpAll ctx none no]; rfl)
  | loop cond body =>
    simp only [Stmt.jump, Stmt.exec, caught_repeatWhile, caught_within, Expr.evalBy_apply,
      Stmt.caught_jumpAll ctx none body]
    rfl
  | func | builtin => rfl
  | ret e =>
    cases e with
    | none => rfl
    | some e =>
      simp only [Stmt.jump, Stmt.exec, caught_ofEval_bind, Expr.evalBy_apply]
      rfl
termination_by structural s

/-- So do statements one after the other. -/
theorem Stmt.caught_jumpAll (ctx : Context) (last : Option Value) (ss : List Stmt) :
    (Stmt.jumpAll (Eval.apply ctx) ctx.rounds last ss).caught =
      Stmt.execAll ctx (.ofResult last) ss := by
  cases ss with
  | nil => rfl
  | cons s ss =>
    rw [Stmt.jumpAll, Stmt.execAll, ← Stmt.caught_jump ctx s]
    refine caught_bind _ _ _ (fun v => rfl) fun result => ?_
    rw [Stmt.caught_jumpAll ctx result ss]
    cases result <;> rfl
termination_by structural ss

end

namespace Jumping

/-- Where bodies end alike, functions that catch the jumps out of them have the same values. -/
theorem invoke_eq {ctx : Context} {enter : Block → Jumping (Option Value)}
    (h : ∀ body, (enter body).caught = ctx.enter body) :
    Jumping.invoke enter = Eval.invoke ctx := by
  funext f args
  cases f with
  | builtin fn => rfl
  | user name params body closure =>
    simp only [Jumping.invoke, Eval.invoke, callValue_eq_caught, caught_within,
      caught_ofEval_bind, h]

private theorem calling_eq {ctx : Context} {enter : Block → Jumping (Option Value)}
    (h : ∀ body, (enter body).caught = ctx.enter body) :
    Calling.of ctx.tracing (Jumping.invoke enter) = Eval.apply ctx := by
  rw [invoke_eq h, Calling.of_invoke]

/-- At every depth of calls the body of a function ends alike. -/
theorem caught_enter (rounds : Nat) (tracing : Bool) (calls : Nat) (body : Block) :
    (enter rounds tracing calls body).caught =
      (Context.ofCalls rounds tracing calls).enter body := by
  induction calls generalizing body with
  | zero => rfl
  | succ calls ih =>
    have hcall := calling_eq ih
    rw [Context.tracing_ofCalls] at hcall
    rw [enter, caught_within, hcall]
    have hbody := Stmt.caught_jumpAll (.ofCalls rounds tracing calls) none body
    rw [Context.rounds_ofCalls] at hbody
    rw [hbody]
    rfl

/-- Calls that catch jumps are the calls of evaluation. -/
theorem calling_enter (rounds : Nat) (tracing : Bool) (calls : Nat) :
    Calling.of tracing (invoke (enter rounds tracing calls)) =
      Eval.apply (.ofCalls rounds tracing calls) := by
  have hcall := calling_eq (caught_enter rounds tracing calls)
  rw [Context.tracing_ofCalls] at hcall
  exact hcall

end Jumping

/-- A program ends alike. -/
theorem Program.caught_jump (limits : Limits) (tracing : Bool) (p : Program) :
    (p.jump limits tracing).caught = p.exec limits tracing := by
  rw [Program.jump, Jumping.calling_enter]
  have hall := Stmt.caught_jumpAll (.ofCalls limits.rounds tracing limits.calls) none p
  rw [Context.rounds_ofCalls] at hall
  exact hall

/-! ### Where a return stands -/

/-- Whether an expression holds as the condition of a branch or of a loop. -/
def Expr.test (ctx : Context) (cond : Expr) : Eval Bool := do
  let v ← cond.eval ctx
  Eval.lift v.truth

namespace Stmt

/-- From the world `w` on, `n` rounds of a loop go by without a return, and end in `w'`. -/
inductive Rounds (ctx : Context) (cond : Expr) (body : Block) : Nat → World → World → Prop where
  | none {w : World} : Rounds ctx cond body 0 w w
  | round {n : Nat} {flow : Flow} {w w₁ w₂ w' : World} :
      cond.test ctx w = .ok true w₁ → body.exec ctx w₁ = .ok flow w₂ → flow.GoesOn →
      Rounds ctx cond body n w₂ w' → Rounds ctx cond body (n + 1) w w'

/-- Run from the world `w` on, statements come to a `return e` of their own activation in the world
`w'`, at whatever depth of blocks, branches and loops it stands. -/
inductive Reaches (ctx : Context) : List Stmt → World → Option Expr → World → Prop where
  | here {e : Option Expr} {ss : List Stmt} {w : World} : Reaches ctx (.ret e :: ss) w e w
  | later {s : Stmt} {ss : List Stmt} {flow : Flow} {e : Option Expr} {w w₁ w' : World} :
      s.exec ctx w = .ok flow w₁ → flow.GoesOn → Reaches ctx ss w₁ e w' →
      Reaches ctx (s :: ss) w e w'
  | block {body ss : List Stmt} {e : Option Expr} {w w' : World} :
      Reaches ctx body w.opened e w' → Reaches ctx (.block body :: ss) w e w'
  | branch {cond : Expr} {yes no ss : List Stmt} {holds : Bool} {e : Option Expr}
      {w w₁ w' : World} : cond.test ctx w = .ok holds w₁ →
      Reaches ctx (if holds then yes else no) w₁.opened e w' →
      Reaches ctx (.branch cond yes no :: ss) w e w'
  | loop {cond : Expr} {body ss : List Stmt} {n : Nat} {e : Option Expr} {w w₁ w₂ w' : World} :
      Rounds ctx cond body n w w₁ → n < ctx.rounds → cond.test ctx w₁ = .ok true w₂ →
      Reaches ctx body w₂.opened e w' → Reaches ctx (.loop cond body :: ss) w e w'

private theorem exec_branch (ctx : Context) (cond : Expr) (yes no : Block) (w : World) :
    (Stmt.branch cond yes no).exec ctx w =
      (do let holds ← cond.test ctx
          Block.exec ctx (if holds then yes else no) : Eval Flow) w := by
  rw [Stmt.exec, Expr.test]
  simp only [bind, EStateM.bind]
  cases cond.eval ctx w with
  | error stop w₁ => rfl
  | ok v w₁ =>
    simp only
    cases Eval.lift v.truth w₁ with
    | error stop w₂ => rfl
    | ok holds w₂ => cases holds <;> rfl

section Forward

variable {limits : Limits} {tracing : Bool} {w w₁ w' : World} {e : Option Expr}

private theorem inner_test {cond : Expr} {holds : Bool}
    (h : cond.test (.ofCalls limits.rounds tracing limits.calls) w = .ok holds w₁) :
    w₁.env.inner = w.env.inner := by
  have hcond := cond.adding_eval limits tracing w
  simp only [Expr.test, bind, EStateM.bind] at h
  cases heval : cond.eval (.ofCalls limits.rounds tracing limits.calls) w with
  | error stop w₂ =>
    rw [heval] at h
    cases h
  | ok v w₂ =>
    rw [heval] at h hcond
    cases htruth : v.truth with
    | error f =>
      simp only [htruth] at h
      cases h
    | ok b =>
      simp only [htruth] at h
      cases h
      exact hcond.inner

private theorem inner_exec {s : Stmt} {flow : Flow}
    (h : s.exec (.ofCalls limits.rounds tracing limits.calls) w = .ok flow w₁) :
    w₁.env.inner = w.env.inner := by
  have hs := s.adding_exec limits tracing w
  rw [h] at hs
  exact hs.inner

private theorem Rounds.inner_eq {cond : Expr} {body : Block} {n : Nat}
    (h : Rounds (.ofCalls limits.rounds tracing limits.calls) cond body n w w₁) :
    w₁.env.inner = w.env.inner := by
  induction h with
  | none => rfl
  | round htest hbody _ _ ih =>
    have hexec := inner_exec (s := .block body) hbody
    rw [ih, hexec, inner_test htest]

private theorem Rounds.repeatWhile_eq {ctx : Context} {cond : Expr} {body : Block} {n : Nat}
    (h : Rounds ctx cond body n w w₁) (more : Nat) (last : Flow) :
    ∃ last', Eval.repeatWhile (cond.test ctx) (Block.exec ctx body) (more + n) last w =
      Eval.repeatWhile (cond.test ctx) (Block.exec ctx body) more last' w₁ := by
  induction h generalizing last with
  | none => exact ⟨last, rfl⟩
  | @round n flow w w₁ w₂ w' htest hbody hflow _ ih =>
    obtain ⟨last', hlast⟩ := ih flow
    refine ⟨last', Eq.trans ?_ hlast⟩
    rw [← Nat.add_assoc, Eval.repeatWhile]
    simp only [bind, EStateM.bind, htest, if_true, hbody]
    cases flow with
    | returned v => exact hflow.elim
    | next | value => rfl

/-- A loop ends with a round that returns or fails. -/
theorem repeatWhile_of_ends {test : Eval Bool} {body : Eval Flow}
    (htest : test w = .ok true w₁) (hbody : Ends (body w₁)) (more : Nat) (last : Flow) :
    Eval.repeatWhile test body (more + 1) last w = body w₁ := by
  rw [Eval.repeatWhile]
  simp only [bind, EStateM.bind, htest, if_true]
  cases hres : body w₁ with
  | error stop w₂ => rfl
  | ok flow w₂ =>
    cases flow with
    | returned v => rfl
    | next | value => exact (hbody _ _ hres trivial).elim

private theorem ends_ret (ctx : Context) (e : Option Expr) (inner : List ScopeId) (w : World) :
    Ends (endOn inner ((Stmt.ret e).exec ctx w)) := by
  intro flow w' h
  cases e with
  | none =>
    cases h
    exact id
  | some e =>
    rw [Stmt.exec] at h
    simp only [bind, EStateM.bind] at h
    cases heval : e.eval ctx w with
    | error stop w₁ =>
      rw [heval] at h
      cases h
    | ok v w₁ =>
      rw [heval] at h
      cases h
      exact id

private theorem endOn_ret (limits : Limits) (tracing : Bool) (e : Option Expr) (w : World) :
    endOn w.env.inner ((Stmt.ret e).exec (.ofCalls limits.rounds tracing limits.calls) w) =
      (Stmt.ret e).exec (.ofCalls limits.rounds tracing limits.calls) w := by
  have hs := (Stmt.ret e).adding_exec limits tracing w
  cases hres : (Stmt.ret e).exec (.ofCalls limits.rounds tracing limits.calls) w with
  | ok flow w₁ =>
    rw [hres] at hs
    exact congrArg (EStateM.Result.ok flow) (by rw [World.on, ← hs.inner])
  | error stop w₁ =>
    rw [hres] at hs
    exact congrArg (EStateM.Result.error stop) (by rw [World.on, ← hs.inner])

/-- A return is the last thing that is done: where statements come to `return e`, they end as that
does, and the stack is what it was. -/
theorem Reaches.execAll_eq (limits : Limits) (tracing : Bool) {ss : List Stmt}
    (h : Reaches (.ofCalls limits.rounds tracing limits.calls) ss w e w') (last : Flow) :
    execAll (.ofCalls limits.rounds tracing limits.calls) last ss w =
      endOn w.env.inner
        ((Stmt.ret e).exec (.ofCalls limits.rounds tracing limits.calls) w') := by
  -- a statement in which the return stands ends the list
  have hfirst {s : Stmt} {ss : List Stmt} {w w' : World} {e : Option Expr} {last : Flow}
      (hs : s.exec (.ofCalls limits.rounds tracing limits.calls) w = endOn w.env.inner
        ((Stmt.ret e).exec (.ofCalls limits.rounds tracing limits.calls) w')) :
      execAll (.ofCalls limits.rounds tracing limits.calls) last (s :: ss) w =
        endOn w.env.inner
          ((Stmt.ret e).exec (.ofCalls limits.rounds tracing limits.calls) w') := by
    rw [execAll_cons_of_ends (hs ▸ ends_ret _ e _ w'), hs]
  -- and so does the block
  have hblock {body : Block} {w w' : World} {e : Option Expr}
      (hbody : execAll (.ofCalls limits.rounds tracing limits.calls) .next body w.opened =
        endOn w.opened.env.inner
          ((Stmt.ret e).exec (.ofCalls limits.rounds tracing limits.calls) w')) :
      body.exec (.ofCalls limits.rounds tracing limits.calls) w = endOn w.env.inner
        ((Stmt.ret e).exec (.ofCalls limits.rounds tracing limits.calls) w') := by
    rw [Block.exec_eq_endOn, hbody, endOn_endOn]
  induction h generalizing last with
  | here => exact hfirst (endOn_ret limits tracing _ _).symm
  | later hs hflow _ ih => rw [execAll_cons_of_goesOn hs hflow, ih, inner_exec hs]
  | block _ ih => exact hfirst (hblock (ih .next))
  | @branch cond yes no ss holds e w w₁ w' htest _ ih =>
    refine hfirst ?_
    rw [exec_branch, ← inner_test htest, ← hblock (ih .next)]
    simp only [bind, EStateM.bind, htest]
  | @loop cond body ss n e w w₁ w₂ w' hrounds hn htest _ ih =>
    refine hfirst ?_
    have hbody := hblock (ih .next)
    have hends := hbody ▸ ends_ret (.ofCalls limits.rounds tracing limits.calls) e w₂.env.inner w'
    obtain ⟨more, hmore⟩ := Nat.exists_eq_add_of_lt hn
    obtain ⟨last', hlast⟩ := hrounds.repeatWhile_eq (more + 1) .next
    show Eval.repeatWhile (cond.test _) (Block.exec _ body) _ .next w = _
    rw [hmore, Nat.add_assoc, Nat.add_comm, hlast, repeatWhile_of_ends htest hends, hbody,
      inner_test htest, hrounds.inner_eq]

end Forward

/-! ### No other way to return -/

section Backward

variable {ctx : Context} {w w' : World} {v : Value}

private theorem exists_of_bind {α β : Type} {act : Eval α} {next : α → Eval β} {b : β}
    (h : (act >>= next) w = .ok b w') : ∃ a w₁, act w = .ok a w₁ ∧ next a w₁ = .ok b w' := by
  simp only [bind, EStateM.bind] at h
  cases hact : act w with
  | error stop w₁ =>
    rw [hact] at h
    cases h
  | ok a w₁ =>
    rw [hact] at h
    exact ⟨a, w₁, rfl, h⟩

private theorem exists_of_block {body : Block} {flow : Flow}
    (h : body.exec ctx w = .ok flow w') :
    ∃ w₁, execAll ctx .next body w.opened = .ok flow w₁ := by
  have henter : (do Eval.enter Env.push; execAll ctx .next body : Eval Flow) w =
      execAll ctx .next body w.opened := rfl
  rw [Block.exec, Eval.within, henter] at h
  cases hres : execAll ctx .next body w.opened with
  | error stop w₁ =>
    rw [hres] at h
    obtain ⟨_, _, -, h⟩ := exists_of_bind h
    cases h
  | ok flow' w₁ =>
    rw [hres] at h
    obtain ⟨_, _, -, h⟩ := exists_of_bind h
    cases h
    exact ⟨w₁, rfl⟩

private theorem exists_of_repeatWhile {cond : Expr} {body : Block} {rounds : Nat} {last : Flow}
    (hlast : last.GoesOn)
    (h : Eval.repeatWhile (cond.test ctx) (Block.exec ctx body) rounds last w =
      .ok (.returned v) w') :
    ∃ n w₁ w₂, Rounds ctx cond body n w w₁ ∧ n < rounds ∧ cond.test ctx w₁ = .ok true w₂ ∧
      body.exec ctx w₂ = .ok (.returned v) w' := by
  induction rounds generalizing w last with
  | zero => cases h
  | succ rounds ih =>
    obtain ⟨holds, w₁, htest, h⟩ := exists_of_bind h
    cases holds with
    | false =>
      cases h
      exact hlast.elim
    | true =>
      obtain ⟨flow, w₂, hbody, h⟩ := exists_of_bind h
      by_cases hflow : flow.GoesOn
      · have hnext : Eval.repeatWhile (cond.test ctx) (Block.exec ctx body) rounds flow w₂ =
            .ok (.returned v) w' := by
          cases flow with
          | returned => exact hflow.elim
          | next | value => exact h
        obtain ⟨n, w₃, w₄, hrounds, hn, hlater⟩ := ih hflow hnext
        exact ⟨n + 1, w₃, w₄, .round htest hbody hflow hrounds, Nat.succ_lt_succ hn, hlater⟩
      · cases flow with
        | next | value => exact (hflow trivial).elim
        | returned u =>
          cases h
          exact ⟨0, w, w₁, .none, Nat.succ_pos _, htest, hbody⟩

mutual

/-- A statement that returns has come to a return. -/
theorem exists_reaches (ctx : Context) (s : Stmt) (ss : List Stmt) {w w' : World} {v : Value}
    (h : s.exec ctx w = .ok (.returned v) w') : ∃ e w₁, Reaches ctx (s :: ss) w e w₁ := by
  cases s with
  | expr e =>
    obtain ⟨_, _, -, h⟩ := exists_of_bind h
    cases h
  | print e =>
    obtain ⟨_, _, -, h⟩ := exists_of_bind h
    obtain ⟨_, _, -, h⟩ := exists_of_bind h
    cases h
  | block body =>
    obtain ⟨w₁, hbody⟩ := exists_of_block h
    obtain ⟨e, w₂, hreach⟩ := exists_reaches_all ctx body hbody trivial
    exact ⟨e, w₂, .block hreach⟩
  | var x init =>
    cases init with
    | none =>
      cases h
    | some e =>
      obtain ⟨_, _, -, h⟩ := exists_of_bind h
      cases h
  | branch cond yes no =>
    rw [exec_branch] at h
    obtain ⟨holds, w₁, htest, h⟩ := exists_of_bind h
    obtain ⟨w₂, hbody⟩ := exists_of_block h
    have hreach : ∃ e w₃, Reaches ctx (if holds then yes else no) w₁.opened e w₃ := by
      cases holds with
      | true => exact exists_reaches_all ctx yes hbody trivial
      | false => exact exists_reaches_all ctx no hbody trivial
    obtain ⟨e, w₃, hreach⟩ := hreach
    exact ⟨e, w₃, .branch htest hreach⟩
  | loop cond body =>
    have hlast : Flow.next.GoesOn := trivial
    obtain ⟨n, w₁, w₂, hrounds, hn, htest, hround⟩ := exists_of_repeatWhile hlast h
    obtain ⟨w₃, hbody⟩ := exists_of_block hround
    obtain ⟨e, w₄, hreach⟩ := exists_reaches_all ctx body hbody trivial
    exact ⟨e, w₄, .loop hrounds hn htest hreach⟩
  | func name params body => cases h
  | builtin name fn => cases h
  | ret e => exact ⟨e, w, .here⟩
termination_by structural s

/-- So have statements that return one after the other. -/
theorem exists_reaches_all (ctx : Context) (ss : List Stmt) {w w' : World} {last : Flow} {v : Value}
    (h : execAll ctx last ss w = .ok (.returned v) w') (hlast : last.GoesOn) :
    ∃ e w₁, Reaches ctx ss w e w₁ := by
  cases ss with
  | nil =>
    cases h
    exact hlast.elim
  | cons s ss =>
    cases hs : s.exec ctx w with
    | error stop w₁ =>
      rw [execAll_cons_of_error hs] at h
      cases h
    | ok flow w₁ =>
      by_cases hflow : flow.GoesOn
      · rw [execAll_cons_of_goesOn hs hflow] at h
        obtain ⟨e, w₂, hreach⟩ := exists_reaches_all ctx ss h hflow
        exact ⟨e, w₂, .later hs hflow hreach⟩
      · cases flow with
        | next | value => exact (hflow trivial).elim
        | returned u => exact exists_reaches ctx s ss hs
termination_by structural ss

end

private theorem exists_of_concat {ss : List Stmt} {s : Stmt} {flow : Flow}
    (h : execAll ctx .next (ss ++ [s]) w = .ok flow w') (hflow : flow.GoesOn) :
    ∃ last w₁, execAll ctx .next ss w = .ok last w₁ ∧ last.GoesOn ∧
      s.exec ctx w₁ = .ok flow w' := by
  have hnext : Flow.next.GoesOn := trivial
  rcases execAll_cases ctx ss hnext w with
    ⟨last, w₁, hss, hlast⟩ | ⟨_, _, _, _, _, _, _, _, hends, hss⟩
  · refine ⟨last, w₁, hss, hlast, ?_⟩
    rw [execAll_append_of_goesOn hss hlast] at h
    cases hs : s.exec ctx w₁ with
    | error stop w₂ =>
      rw [execAll_cons_of_error hs] at h
      cases h
    | ok flow' w₂ =>
      by_cases hflow' : flow'.GoesOn
      · rw [execAll_cons_of_goesOn hs hflow'] at h
        exact h
      · rw [execAll_cons_of_ends fun _ _ hres => ?_] at h
        · exact hs.symm.trans h
        · cases hs.symm.trans hres
          exact hflow'
  · rw [execAll_append_of_ends hnext (hss ▸ hends)] at h
    exact (hends _ _ (hss ▸ h) hflow).elim

end Backward

end Stmt

/-- The value that a return comes with. -/
def Expr.returned (ctx : Context) : Option Expr → Eval Value
  | none => pure .unit
  | some e => e.eval ctx

private theorem callValue_of_returned {ctx : Context} {act : Eval Flow} {w w' : World}
    {inner : List ScopeId} {e : Option Expr}
    (h : act w = endOn inner ((Stmt.ret e).exec ctx w')) :
    (act >>= fun flow => pure flow.callValue) w = endOn inner (Expr.returned ctx e w') := by
  simp only [bind, EStateM.bind, h]
  cases e with
  | none => rfl
  | some e =>
    rw [Stmt.exec, Expr.returned]
    simp only [bind, EStateM.bind]
    cases e.eval ctx w' <;> rfl

private theorem exists_of_endOn {α : Type} {inner : List ScopeId}
    {res : EStateM.Result Stop World α} {a : α} {w : World} (h : endOn inner res = .ok a w) :
    ∃ w₁, w = w₁.on inner ∧ res = .ok a w₁ := by
  cases res with
  | error stop w₁ => cases h
  | ok b w₁ =>
    cases h
    exact ⟨w₁, rfl, rfl⟩

/-- Evaluation, which hands a return outward, agrees with the reading in which a return jumps to the
nearest call, or to the end of the program: for all programs and for all calls. When the body of a
function comes to a return, the call is over: its value is the one that the return comes with, in
the world that the return leaves. When it comes to none, the value is that of the last statement. -/
theorem return_jumps (limits : Limits) (tracing : Bool) :
    (∀ (p : Program) (w : World),
      p.exec limits tracing w = (p.jump limits tracing).caught w) ∧
    (∀ (calls : Nat) (f : Function) (args : List Value) (w : World),
      Eval.apply (.ofCalls limits.rounds tracing calls) f args w =
        Calling.of tracing (Jumping.invoke (Jumping.enter limits.rounds tracing calls)) f args
          w) ∧
    ∀ (calls : Nat) (name : String) (params : List String) (body : Block) (closure : ScopeId)
      (args : List Value) (w : World),
      let ctx : Context := .ofCalls limits.rounds tracing calls
      let f : Function := .user name params body closure
      let call := Eval.invoke (.ofCalls limits.rounds tracing (calls + 1)) f args w
      (∀ e w', Stmt.Reaches ctx body (w.atBody f args) e w' →
        call = endOn w.env.inner (Expr.returned ctx e w')) ∧
      ∀ v w', (∀ e w₁, ¬Stmt.Reaches ctx body (w.atBody f args) e w₁) → call = .ok v w' →
        body = [] ∧ v = .unit ∨
        ∃ ss s last flow w₁ w₂, body = ss ++ [s] ∧
          Stmt.execAll ctx .next ss (w.atBody f args) = .ok last w₁ ∧ last.GoesOn ∧
          s.exec ctx w₁ = .ok flow w₂ ∧ (flow = .value v ∨ flow = .next ∧ v = .unit) ∧
          w' = w₂.on w.env.inner := by
  refine ⟨fun p w => ?_, fun calls f args w => ?_, ?_⟩
  · rw [Program.caught_jump]
  · rw [Jumping.calling_enter]
  · intro calls name params body closure args w ctx f call
    have hcall : call = endOn w.env.inner
        ((Stmt.execAll ctx .next body >>= fun flow => pure flow.callValue) (w.atBody f args)) :=
      Eval.invoke_eq_atBody limits.rounds tracing calls name params body closure args w
    refine ⟨fun e w' hreach => ?_, fun v w' hnone hv => ?_⟩
    · have hbody := Stmt.Reaches.execAll_eq ⟨calls, limits.rounds⟩ tracing hreach .next
      rw [hcall, callValue_of_returned hbody, endOn_endOn]
    · obtain ⟨w₂, hw', hv⟩ := exists_of_endOn (hcall.symm.trans hv)
      obtain ⟨flow, w₃, hbody, hvalue⟩ := Stmt.exists_of_bind hv
      obtain ⟨rfl, rfl⟩ := EStateM.Result.ok.inj hvalue
      have hflow : flow.GoesOn := by
        cases flow with
        | next | value => exact trivial
        | returned u =>
          obtain ⟨e, w₁, hreach⟩ := Stmt.exists_reaches_all ctx body hbody trivial
          exact (hnone e w₁ hreach).elim
      rcases List.eq_nil_or_concat body with rfl | ⟨ss, s, rfl⟩
      · cases hbody
        exact .inl ⟨rfl, rfl⟩
      · rw [List.concat_eq_append] at hbody ⊢
        obtain ⟨last, w₁, hss, hlast, hs⟩ := Stmt.exists_of_concat hbody hflow
        refine .inr ⟨ss, s, last, flow, w₁, w₃, rfl, hss, hlast, hs, ?_, hw'⟩
        cases flow with
        | returned u => exact hflow.elim
        | value u => exact .inl rfl
        | next => exact .inr ⟨rfl, rfl⟩

/-- A return in a block of a branch in a loop ends the call: the loop would go on for ever, and what
stands after it would fail. -/
theorem return_jumps_nested :
    let body : Block := [.loop (.literal (.bool true))
      [.var "y" none, .block [.branch (.literal (.bool true)) [.ret (some (.name "n"))] []],
        .expr .hole], .expr .hole]
    let f : Function := .user "f" ["n"] body 0
    (∃ w, Stmt.Reaches (.ofCalls 4 false 3) body (World.start.atBody f [.int 5])
      (some (.name "n")) w) ∧
    ∃ w, Eval.invoke (.ofCalls 4 false 4) f [.int 5] .start = .ok (.int 5) w := by
  intro body f
  have hreach : Stmt.Reaches (.ofCalls 4 false 3) body (World.start.atBody f [.int 5])
      (some (.name "n")) _ :=
    .loop .none (by decide) rfl (.later rfl trivial (.block (.branch rfl .here)))
  have hcall := ((return_jumps ⟨3, 4⟩ false).2.2 3 "f" ["n"] body 0 [.int 5] .start).1 _ _ hreach
  exact ⟨⟨_, hreach⟩, _, hcall.trans rfl⟩

end Lox
