import Lox.Proofs.Captures

/-!
# Calls that copy what was captured

A reading of the language in which a call does not run in the scope that its function has captured,
but in a copy of it: parameters are bound in the copy, and when the call ends, however it ends, the
contents of the copy are what the function has captured from then on.
-/

namespace Lox

namespace Env

/-- Replaces the contents of a scope. -/
def store (id : ScopeId) (contents : Scope) : Env → Env
  | ⟨scopes, inner⟩ => ⟨scopes.modify id fun _ => contents, inner⟩

/-- Other contents make no scope. -/
@[simp] theorem size_store (e : Env) (id : ScopeId) (contents : Scope) :
    (e.store id contents).scopes.size = e.scopes.size := by
  simp [store]

/-- A scope that exists has the contents that it was given. -/
theorem scope_store_self {e : Env} {id : ScopeId} (h : id < e.scopes.size) (contents : Scope) :
    (e.store id contents).scope id = contents := by
  simp [scope, store, Array.getD_eq_getD_getElem?, h, Array.getElem_modify_self]

/-- Other contents leave the other scopes alone. -/
theorem scope_store_of_ne {e : Env} {id other : ScopeId} (h : other ≠ id) (contents : Scope) :
    (e.store id contents).scope other = e.scope other := by
  simp [scope, store, Array.getD_eq_getD_getElem?, Array.getElem?_modify, Ne.symm h]

/-- A new scope lies on the others. -/
@[simp] theorem inner_pushCopy (e : Env) (contents : Scope) :
    (e.pushCopy contents).inner = e.scopes.size :: e.inner := rfl

/-- A new scope is one more. -/
@[simp] theorem size_pushCopy (e : Env) (contents : Scope) :
    (e.pushCopy contents).scopes.size = e.scopes.size + 1 := by
  simp [pushCopy]

/-- A new scope has the contents that it was made with. -/
theorem scope_pushCopy_self (e : Env) (contents : Scope) :
    (e.pushCopy contents).scope e.scopes.size = contents := by
  simp [scope, pushCopy, Array.getD_eq_getD_getElem?]

/-- A new scope leaves the scopes that exist as they are. -/
theorem scope_pushCopy_of_lt {e : Env} {id : ScopeId} (h : id < e.scopes.size) (contents : Scope) :
    (e.pushCopy contents).scope id = e.scope id := by
  simp [scope, pushCopy, Array.getD_eq_getD_getElem?, Array.getElem?_push, Nat.ne_of_lt h]

end Env

/-! ### The reading with copies -/

namespace Copying

variable {α : Type}

/-- Lays a copy of what a function has captured on the stack. -/
def copyIn (closure : ScopeId) : Eval Unit := Eval.enter fun e => e.pushCopy (e.scope closure)

/-- Takes the innermost scope from the stack; what it binds is what the function has captured. -/
def copyOut (closure : ScopeId) : Eval Unit := fun ⟨env, printed, trace⟩ =>
  match env.pop? with
  | some (id, env) => .ok () ⟨env.store closure (env.scope id), printed, trace⟩
  | none => Eval.raise .lastScope ⟨env, printed, trace⟩

/-- Runs `act` in a copy of what a function has captured, and keeps the copy, however `act` ends. -/
def within (closure : ScopeId) (act : Eval α) : Eval α :=
  bracket (copyIn closure) (copyOut closure) act

/-- The value of a function for as many arguments as it has parameters. Parameters are bound in the
copy. -/
def invoke (enter : Block → Eval Flow) : Calling Eval
  | .builtin fn, args => Eval.lift (fn.apply args)
  | .user _ params body closure, args => do
    let flow ← within closure do
      Eval.defineAll params args
      enter body
    pure flow.callValue

end Copying

/-- Runs a program, with calls that copy, in the scope that is innermost. -/
def Program.execCopying (limits : Limits) (tracing : Bool) (p : Program) : Eval Flow :=
  p.onBy (.eval tracing) Copying.invoke limits

/-- Runs a unit of source text with calls that copy. -/
def Source.execCopying (limits : Limits) (job : Job) : Stage Flow := do
  let p ← prepare job
  run (p.execCopying limits job.flags.tracing)

/-! ### How a call copies -/

/-- The world in which the parameters of a call have been bound in a copy. -/
def World.copiedIn (params : List String) (closure : ScopeId) (args : List Value) (w : World) :
    World :=
  ⟨(w.env.pushCopy (w.env.scope closure)).bindAll params args, w.printed, w.trace⟩

/-- The world in which a call has ended whose copy is the scope `id`, and the copy is kept. -/
def World.copiedOut (closure id : ScopeId) (inner : List ScopeId) (w : World) : World :=
  ⟨Env.store closure (w.env.scope id) ⟨w.env.scopes, inner⟩, w.printed, w.trace⟩

/-- What runs in a call runs where its parameters have been bound in the copy, and then the copy is
kept. -/
theorem Copying.within_eq {α : Type} {params : List String} {closure id : ScopeId}
    {args : List Value} {inner : List ScopeId} {act : Eval α} {w : World}
    (h : (endState (act (w.copiedIn params closure args))).env.inner = id :: inner) :
    Copying.within closure (do Eval.defineAll params args; act) w =
      mapEnd (World.copiedOut closure id inner) (act (w.copiedIn params closure args)) := by
  have henter : (do Copying.copyIn closure; Eval.defineAll params args; act : Eval α) w =
      act (w.copiedIn params closure args) := by
    simp only [bind, EStateM.bind, Copying.copyIn, Eval.enter, Eval.defineAll_eq]
    rfl
  simp only [Copying.within, bracket]
  rw [henter]
  cases hres : act (w.copiedIn params closure args) with
  | ok a s =>
    obtain ⟨⟨scopes, ids⟩, printed, trace⟩ := s
    rw [hres] at h
    obtain rfl : ids = id :: inner := h
    rfl
  | error stop s =>
    obtain ⟨⟨scopes, ids⟩, printed, trace⟩ := s
    rw [hres] at h
    obtain rfl : ids = id :: inner := h
    rfl

end Lox
