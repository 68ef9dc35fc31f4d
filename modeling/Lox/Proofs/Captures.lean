import Lox.Proofs.Frames
import Lox.Proofs.Visibility

/-!
# What a function can still read

A declaration copies the innermost scope, and nothing else of the stack is kept. So at the start of
a later call a function finds the names that the copied scope bound, and besides its parameters the
names in the scopes that are still on the stack; the global scope always is. A name that stood in
an enclosing scope is lost when that scope is left.
-/

namespace Lox

namespace Env

/-- Binds parameters to arguments in the innermost scope, one after the other. -/
def bindAll : List String → List Value → Env → Env
  | x :: xs, v :: vs, e => bindAll xs vs (e.define x v)
  | _, _, e => e

/-- Parameters are bound in the scope that is innermost. -/
@[simp] theorem inner_bindAll (xs : List String) (vs : List Value) (e : Env) :
    (e.bindAll xs vs).inner = e.inner := by
  induction xs generalizing vs e with
  | nil => rfl
  | cons x xs ih =>
    cases vs with
    | nil => rfl
    | cons v vs => exact ih vs (e.define x v)

/-- Binding parameters makes no scope. -/
@[simp] theorem size_bindAll (xs : List String) (vs : List Value) (e : Env) :
    (e.bindAll xs vs).scopes.size = e.scopes.size := by
  induction xs generalizing vs e with
  | nil => rfl
  | cons x xs ih =>
    cases vs with
    | nil => rfl
    | cons v vs => exact (ih vs (e.define x v)).trans (size_define e x v)

/-- Binding parameters unbinds no name. -/
theorem binds_bindAll (xs : List String) (vs : List Value) {e : Env} {id : ScopeId} {y : String}
    (h : (e.scope id).binds y = true) : ((e.bindAll xs vs).scope id).binds y = true := by
  induction xs generalizing vs e with
  | nil => exact h
  | cons x xs ih =>
    cases vs with
    | nil => exact h
    | cons v vs => exact ih vs (binds_putIn h)

/-- With an argument for each, all parameters are bound. -/
theorem binds_params {xs : List String} {vs : List Value} {e : Env}
    (hlength : vs.length = xs.length) (htop : e.top < e.scopes.size) {x : String} (hx : x ∈ xs) :
    ((e.bindAll xs vs).scope e.top).binds x = true := by
  induction xs generalizing vs e with
  | nil => cases hx
  | cons y xs ih =>
    cases vs with
    | nil => cases hlength
    | cons v vs =>
      have hlength' : vs.length = xs.length := Nat.succ.inj hlength
      rcases List.mem_cons.1 hx with rfl | hx
      · have hdefined : ((e.define x v).scope e.top).binds x = true := by
          rw [define, scope_putIn_self htop]
          exact Scope.binds_put.2 (.inl rfl)
        exact binds_bindAll xs vs hdefined
      · exact ih hlength' (by rw [size_define]; exact htop) hx

end Env

/-- The world in which the body of a function starts that is called with these arguments: on the
stack of the caller lie the scope that the function has captured, one for the parameters and one for
the body. -/
def World.atBody (f : Function) (args : List Value) (w : World) : World :=
  match f with
  | .user _ params _ closure =>
    ⟨((w.env.pushShared closure).push.bindAll params args).push, w.printed, w.trace⟩
  | .builtin _ => w

/-- Parameters are bound as `bindAll` says. -/
theorem Eval.defineAll_eq (xs : List String) (vs : List Value) (w : World) :
    Eval.defineAll xs vs w = .ok () ⟨w.env.bindAll xs vs, w.printed, w.trace⟩ := by
  induction xs generalizing vs w with
  | nil => rfl
  | cons x xs ih =>
    cases vs with
    | nil => rfl
    | cons v vs => exact ih vs ⟨w.env.define x v, w.printed, w.trace⟩

/-- The world in which the statements of a block start: a new scope lies on the stack. -/
def World.opened (w : World) : World := ⟨w.env.push, w.printed, w.trace⟩

/-- A block runs its statements in a scope of its own, and then the stack is what it was. -/
theorem Block.exec_eq_endOn (rounds : Nat) (tracing : Bool) (calls : Nat) (body : Block)
    (w : World) :
    body.exec (.ofCalls rounds tracing calls) w =
      endOn w.env.inner (Stmt.execAll (.ofCalls rounds tracing calls) .next body w.opened) := by
  obtain ⟨done, -, hadds⟩ := Program.exists_adds_exec ⟨calls, rounds⟩ tracing w.opened body
  exact Callers.within_eq_endOn rfl hadds.inner

/-- The world in which the parameters of a function with this captured scope have been bound. -/
def World.passed (params : List String) (closure : ScopeId) (args : List Value) (w : World) :
    World :=
  ⟨(w.env.pushShared closure).push.bindAll params args, w.printed, w.trace⟩

/-- On the stack of the caller lie the captured scope and the one for the parameters. -/
theorem World.inner_passed (params : List String) (closure : ScopeId) (args : List Value)
    (w : World) :
    (w.passed params closure args).env.inner = w.env.scopes.size :: closure :: w.env.inner :=
  Env.inner_bindAll params args (w.env.pushShared closure).push

/-- A call ends as what is run for the body of its function, and then the stack is that of the
caller. -/
theorem Eval.invoke_eq_endOn {ctx : Context} {params : List String} {body : Block}
    {closure : ScopeId} {args : List Value} {w w' : World} {act : Eval Flow}
    (h : ctx.enter body (w.passed params closure args) =
      endOn (w.passed params closure args).env.inner (act w')) (name : String) :
    Eval.invoke ctx (.user name params body closure) args w =
      endOn w.env.inner ((do let flow ← act; pure flow.callValue : Eval Value) w') := by
  let kept : World := ⟨w.env.pushShared closure, w.printed, w.trace⟩
  let bound : World := w.passed params closure args
  have hinner : bound.env.inner = w.env.scopes.size :: closure :: w.env.inner :=
    w.inner_passed params closure args
  let bodyOf : Eval Flow := do
    Eval.defineAll params args
    ctx.enter body
  have hbody : bodyOf ⟨kept.env.push, w.printed, w.trace⟩ = endOn bound.env.inner (act w') := by
    rw [← h]
    simp only [bodyOf, bind, EStateM.bind, Eval.defineAll_eq]
    rfl
  have hparams : Eval.within Env.push bodyOf kept = endOn kept.env.inner (act w') := by
    rw [← endOn_endOn _ bound.env.inner, ← hbody]
    apply Callers.within_eq_endOn rfl
    rw [hbody, endState_endOn]
    exact hinner
  have hcall : Eval.within (Env.pushShared closure) (Eval.within Env.push bodyOf) w =
      endOn w.env.inner (act w') := by
    rw [← endOn_endOn _ kept.env.inner, ← hparams]
    apply Callers.within_eq_endOn rfl
    rw [hparams, endState_endOn]
    rfl
  show (do let flow ← Eval.within (Env.pushShared closure) (Eval.within Env.push bodyOf)
           pure flow.callValue : Eval Value) w = _
  simp only [bind, EStateM.bind, hcall]
  cases act w' with
  | ok flow w'' => rfl
  | error stop w'' => rfl

/-- A call runs the body of its function where `atBody` says, its value is how the body ends, and
then the stack is that of the caller. -/
theorem Eval.invoke_eq_atBody (rounds : Nat) (tracing : Bool) (calls : Nat) (name : String)
    (params : List String) (body : Block) (closure : ScopeId) (args : List Value) (w : World) :
    Eval.invoke (.ofCalls rounds tracing (calls + 1)) (.user name params body closure) args w =
      endOn w.env.inner ((do
        let flow ← Stmt.execAll (.ofCalls rounds tracing calls) .next body
        pure flow.callValue : Eval Value) (w.atBody (.user name params body closure) args)) :=
  Eval.invoke_eq_endOn (Block.exec_eq_endOn rounds tracing calls body _) name

namespace History

/-- A name that a scope binds stays bound there. -/
theorem Valid.binds_mono {earlier past : History} (h : past.Valid) (hsub : earlier <:+ past)
    {id : ScopeId} {x : String} (hx : (earlier.env.scope id).binds x = true) :
    (past.env.scope id).binds x = true := by
  induction h with
  | start =>
    cases List.suffix_nil.1 hsub
    exact hx
  | step _ he ih =>
    rcases List.suffix_cons_iff.1 hsub with rfl | hsub
    · exact hx
    · have hbefore := ih hsub
      cases he with
      | bound _ => exact Env.binds_putIn hbefore
      | assigned _ _ => exact Env.binds_putIn hbefore
      | declared _ =>
        rw [env, Env.scope_snapshot_of_lt (Env.lt_of_binds hbefore)]
        exact hbefore
      | opened _ =>
        rw [env, Env.scope_push]
        exact hbefore
      | begun _ _ => exact hbefore
      | closed _ => exact hbefore

/-- A function can read, where its body starts, a name that could be read where it was declared, if
the name stood in the scope that was innermost then or in one that is still on the stack, if it is
that of a parameter, or if it can be read where the function is called. -/
def Readable (past : History) : Prop :=
  ∀ (later earlier : History) f e, past = later ++ ⟨.declared f, e⟩ :: earlier →
    ∀ x id, earlier.env.owner? x = some id →
      (id = earlier.env.top ∨ id ∈ past.env.stack ∨ x ∈ f.params ∨
        ∃ other, past.env.owner? x = some other) →
    ∀ (args : List Value) (w : World), args.length = f.arity → w.env = past.env →
      ∃ v, ∀ ctx, (Expr.name x).eval ctx (w.atBody f args) = .ok v (w.atBody f args)

/-- Functions can read these names at the end of a valid history. -/
theorem Valid.readable {past : History} (h : past.Valid) : past.Readable := by
  intro later earlier f e hpast x id howner hwhere args w hlength henv
  have hsub : ⟨.declared f, e⟩ :: earlier <:+ past := ⟨later, hpast.symm⟩
  have hbinds := Env.binds_of_owner? howner
  cases h.suffix hsub with
  | step _ he =>
    cases he with
    | declared hf =>
      cases f with
      | builtin fn => cases hf
      | user name params body closure =>
        cases hf
        obtain ⟨env, printed, trace⟩ := w
        obtain rfl : env = past.env := henv
        let kept : Env := past.env.pushShared earlier.env.snapshot.1
        let bound : Env := kept.push.bindAll params args
        have hinner : bound.inner = kept.push.inner := Env.inner_bindAll params args kept.push
        -- what was bound before the call is bound in the same scope where the body starts
        have hstays {i : ScopeId} (hi : (past.env.scope i).binds x = true) :
            (bound.push.scope i).binds x = true := by
          rw [Env.scope_push]
          apply Env.binds_bindAll
          rw [Env.scope_push]
          exact hi
        have hstack : bound.push.stack =
            bound.scopes.size :: kept.scopes.size :: earlier.env.snapshot.1 :: past.env.stack := by
          rw [Env.stack, Env.inner_push, hinner]
          rfl
        have hfound : ∃ i ∈ bound.push.stack, (bound.push.scope i).binds x = true := by
          rw [hstack]
          rcases hwhere with rfl | hmem | hparam | ⟨other, hother⟩
          · refine ⟨earlier.env.snapshot.1, by simp, hstays (h.binds_mono hsub ?_)⟩
            exact (congrArg (fun s : Scope => s.binds x)
              (Env.scope_snapshot_self earlier.env)).trans hbinds
          · refine ⟨id, by simp [hmem], hstays ?_⟩
            exact h.binds_mono ((List.suffix_cons _ _).trans hsub) hbinds
          · refine ⟨kept.push.top, by simp [Env.top], ?_⟩
            rw [Env.scope_push]
            refine Env.binds_params hlength ?_ hparam
            simp [Env.top]
          · exact ⟨other, by simp [Env.owner?_mem hother], hstays (Env.binds_of_owner? hother)⟩
        obtain ⟨i, hi, hx⟩ := hfound
        obtain ⟨v, hv⟩ := Env.exists_get?_of_binds hi hx
        refine ⟨v, fun ctx => ?_⟩
        rw [Expr.eval]
        show Eval.lookup x ⟨bound.push, printed, trace⟩ = _
        rw [Eval.lookup, hv]
        rfl

end History

/-- At every moment of every run of units on one interpreter a function can read, where its body
starts, what could be read where it was declared, as far as the innermost scope bound it there, a
scope binds it that is still on the stack, or it is a parameter or known where the function is
called. -/
theorem captures_readable (limits : Limits) (jobs : List Source.Job) :
    (∀ (tracing : Bool) (calls : Nat) (name : String) (params : List String) (body : Block)
      (closure : ScopeId) (args : List Value) (w : World),
      Eval.invoke (.ofCalls limits.rounds tracing (calls + 1)) (.user name params body closure)
          args w =
        endOn w.env.inner ((do
          let flow ← Stmt.execAll (.ofCalls limits.rounds tracing calls) .next body
          pure flow.callValue : Eval Value) (w.atBody (.user name params body closure) args))) ∧
    (Source.recordAll limits jobs .start).world = Source.execAll limits jobs .start ∧
      (Source.recordAll limits jobs .start).past.env =
        (Source.execAll limits jobs .start).env ∧
      (Source.recordAll limits jobs .start).past.Always History.Readable := by
  constructor
  · exact Eval.invoke_eq_atBody limits.rounds
  · exact Source.always_recordAll History.Valid.readable limits jobs

/-- A name that stood in an enclosing scope is lost: the parameter of the function that a function
was declared in can be read at the declaration, and no more when that function has returned. -/
theorem captures_enclosing_lost :
    let r := endState (Program.record ⟨4, 4⟩ false
      [.func "make" ["n"]
        [.func "get" [] [.ret (some (.name "n"))], .ret (some (.name "get"))],
       .var "g" (some (.call "make" [.literal (.int 5)]))] .start)
    let f := Function.user "get" [] [.ret (some (.name "n"))] 4
    ∃ (later earlier : History) (e : Env),
      r.past = later ++ ⟨.declared f, e⟩ :: earlier ∧
      earlier.env.get? "n" = some (.int 5) ∧
      r.world.env.get? "g" = some (.func f) ∧
      (∀ ctx, (Expr.name "n").eval ctx (r.world.atBody f []) =
        .error (.fault (.undefinedVariable "n")) (r.world.atBody f [])) ∧
      ∃ w, Program.exec ⟨4, 4⟩ false [.print (.call "g" [])] r.world =
        .error (.fault (.undefinedVariable "n")) w := by
  intro r f
  exact ⟨r.past.take 5, r.past.drop 6, History.env (r.past.drop 5), rfl, rfl, rfl, fun _ => rfl, _,
    rfl⟩

end Lox
