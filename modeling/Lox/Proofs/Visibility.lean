import Lox.Proofs.Callers
import Lox.Proofs.Operations

/-!
# What a call sees of its caller

The scopes of a caller stay on the stack while a function runs, so its free names are looked up in
them. Nothing else of a caller can be seen: called on two stacks on which the names that can be free
during the call are bound by the same scopes, a function does the same, and it changes no other
binding of its caller. The proof runs both calls side by side; at each moment the scopes of the call
itself lie on both stacks alike.
-/

namespace Lox

/-- The same world with other scopes on the global one. -/
def World.on (inner : List ScopeId) (w : World) : World :=
  ⟨⟨w.env.scopes, inner⟩, w.printed, w.trace⟩

/-- The same end of an evaluation, with other scopes on the global one. -/
def endOn {α : Type} (inner : List ScopeId) :
    EStateM.Result Stop World α → EStateM.Result Stop World α
  | .ok a w => .ok a (w.on inner)
  | .error s w => .error s (w.on inner)

/-- The scopes that count are those of the end. -/
theorem endOn_endOn {α : Type} (inner inner' : List ScopeId)
    (r : EStateM.Result Stop World α) : endOn inner (endOn inner' r) = endOn inner r := by
  cases r <;> rfl

/-- Where an evaluation ends, with other scopes on the global one. -/
theorem endState_endOn {α : Type} (inner : List ScopeId)
    (r : EStateM.Result Stop World α) : endState (endOn inner r) = (endState r).on inner := by
  cases r <;> rfl

namespace Callers

variable {σ : Callers} {own : List ScopeId} {e e' : Env}

/-! ### Steps side by side -/

/-- A step of the call does the same for both callers: it ends alike, and the scopes of the call are
left on the stack. -/
structure Alike {α : Type} (σ : Callers) (own : List ScopeId) (P : α → Env → Prop) (w : World)
    (act : Eval α) : Prop where
  same : act (w.on (own ++ σ.other)) = endOn (own ++ σ.other) (act w)
  holds : σ.Holds own (endState (act w)).env
  grows : σ.Grows w.env (endState (act w)).env
  value : ∀ a w', act w = .ok a w' → P a w'.env

/-- What a statement ends with is within reach. -/
def ReachesFlow (σ : Callers) : Flow → Env → Prop
  | .next, _ => True
  | .value v, e | .returned v, e => σ.ReachesValue v e

/-- The bodies of functions do the same for both callers where all names are seen. -/
def Enters (σ : Callers) (ctx : Context) : Prop :=
  ∀ {own : List ScopeId} {w : World} (bound : List String) (body : Block), σ.Holds own w.env →
    (∀ x ∈ bound, ∃ id ∈ own, (w.env.scope id).binds x = true) →
    Stmt.freeAll [] bound body ⊆ σ.names → Alike σ own σ.ReachesFlow w (ctx.enter body)

section Steps

variable {α β : Type} {P : α → Env → Prop} {Q : β → Env → Prop} {w : World}

private theorem alike_pure (h : σ.Holds own w.env) {a : α} (ha : P a w.env) :
    Alike σ own P w (pure a) := by
  refine ⟨rfl, h, .refl _, fun b w' hb => ?_⟩
  cases hb
  exact ha

private theorem alike_throw (h : σ.Holds own w.env) (s : Stop) : Alike σ own P w (throw s) := by
  refine ⟨rfl, h, .refl _, fun b w' hb => ?_⟩
  cases hb

private theorem alike_bind {act : Eval α} {next : α → Eval β} (hact : Alike σ own P w act)
    (hnext : ∀ a w', σ.Holds own w'.env → σ.Grows w.env w'.env → P a w'.env →
      Alike σ own Q w' (next a)) :
    Alike σ own Q w (act >>= next) := by
  obtain ⟨hsame, hholds, hgrows, hvalue⟩ := hact
  cases hres : act w with
  | ok a w' =>
    rw [hres] at hsame hholds hgrows
    obtain ⟨hsame', hholds', hgrows', hvalue'⟩ := hnext a w' hholds hgrows (hvalue a w' hres)
    constructor
    · rw [bind_of_ok hres, bind_of_ok hsame, hsame']
    · rw [bind_of_ok hres]
      exact hholds'
    · rw [bind_of_ok hres]
      exact hgrows.trans hgrows'
    · rw [bind_of_ok hres]
      exact hvalue'
  | error s w' =>
    rw [hres] at hsame hholds hgrows
    constructor
    · rw [bind_of_error hres, bind_of_error hsame]
      rfl
    · rw [bind_of_error hres]
      exact hholds
    · rw [bind_of_error hres]
      exact hgrows
    · rw [bind_of_error hres]
      intro b w'' hb
      cases hb

private theorem alike_congr {act act' : Eval α} (h : Alike σ own P w act') (hone : act w = act' w)
    (hother : act (w.on (own ++ σ.other)) = act' (w.on (own ++ σ.other))) :
    Alike σ own P w act := by
  constructor
  · rw [hone, hother]
    exact h.same
  · rw [hone]
    exact h.holds
  · rw [hone]
    exact h.grows
  · rw [hone]
    exact h.value

private theorem alike_raise (h : σ.Holds own w.env) (f : Fault) :
    Alike σ own P w (Eval.raise f) := alike_throw h _

private theorem alike_lift (h : σ.Holds own w.env) {result : Except Fault α}
    (hok : ∀ a, result = .ok a → P a w.env) : Alike σ own P w (Eval.lift result) := by
  cases result with
  | ok a => exact alike_pure h (hok a rfl)
  | error f => exact alike_raise h f

private theorem alike_truth (h : σ.Holds own w.env) (v : Value) :
    Alike σ own (fun _ _ => True) w (Eval.lift v.truth) := alike_lift h fun _ _ => trivial

private theorem alike_function (h : σ.Holds own w.env) {v : Value} (hv : σ.ReachesValue v w.env) :
    Alike σ own (fun f e => σ.Reaches e f) w (Eval.lift v.function) := by
  refine alike_lift h fun f hf => hv f ?_
  cases v <;> simp only [Value.function, Except.ok.injEq, reduceCtorEq] at hf
  exact congrArg Value.func hf

private theorem alike_write (h : σ.Holds own w.env) (text : String) :
    Alike σ own (fun _ _ => True) w (Eval.write text) :=
  ⟨rfl, h, .refl _, fun _ _ _ => trivial⟩

private theorem alike_print (h : σ.Holds own w.env) (v : Value) :
    Alike σ own (fun _ _ => True) w (Eval.print v) := by
  unfold Eval.print
  cases v.text? with
  | some text => exact alike_write h _
  | none => exact alike_throw h _

private theorem alike_traceCall (h : σ.Holds own w.env) (ctx : Context) (f : Function)
    (args : List Value) : Alike σ own (fun _ _ => True) w (Eval.traceCall ctx f args) := by
  unfold Eval.traceCall Eval.noteCall
  split
  · cases Eval.texts args with
    | some ss => exact ⟨rfl, h, .refl _, fun _ _ _ => trivial⟩
    | none => exact alike_throw h _
  · exact alike_pure h trivial

private theorem alike_checkArity (h : σ.Holds own w.env) (f : Function) (args : List Value) :
    Alike σ own (fun _ _ => args.length = f.arity) w (Eval.checkArity f args) := by
  unfold Eval.checkArity
  split
  · next hlength => exact alike_pure h hlength
  · exact alike_raise h _

private theorem alike_lookup (h : σ.Holds own w.env) {x : String} (hx : σ.Sees own w.env x) :
    Alike σ own σ.ReachesValue w (Eval.lookup x) := by
  have hother : (w.on (own ++ σ.other)).env.get? x = w.env.get? x := get?_on h hx
  cases hget : w.env.get? x with
  | none =>
    refine alike_congr (alike_raise h (.undefinedVariable x)) ?_ ?_
    · simp only [Eval.lookup, hget]
    · simp only [Eval.lookup, hother, hget]
  | some v =>
    refine alike_congr (alike_pure h (reachesValue_of_get? h hx hget)) ?_ ?_
    · simp only [Eval.lookup, hget, pure, EStateM.pure]
    · simp only [Eval.lookup, hother, hget, pure, EStateM.pure]

private theorem Alike.weaken {P' : α → Env → Prop} {act : Eval α} (h : Alike σ own P w act)
    (hP : ∀ a e, P a e → P' a e) : Alike σ own P' w act :=
  ⟨h.same, h.holds, h.grows, fun a w' ha => hP a w'.env (h.value a w' ha)⟩

private theorem Alike.growing {act : Eval α} (h : Alike σ own P w act) :
    Alike σ own (fun a e => P a e ∧ σ.Grows w.env e) w act := by
  refine ⟨h.same, h.holds, h.grows, fun a w' ha => ⟨h.value a w' ha, ?_⟩⟩
  have hgrows := h.grows
  rw [ha] at hgrows
  exact hgrows

private theorem alike_putIn (h : σ.Holds own w.env) {act : Eval Unit} {id : ScopeId} {x : String}
    {v : Value} (hplace : Place σ w.env id x) (hv : σ.ReachesValue v w.env)
    (hone : act w = .ok () ⟨w.env.putIn id x v, w.printed, w.trace⟩)
    (hother : act (w.on (own ++ σ.other)) =
      .ok () ⟨(w.on (own ++ σ.other)).env.putIn id x v, w.printed, w.trace⟩) :
    Alike σ own (fun _ e => e = w.env.putIn id x v) w act := by
  constructor
  · rw [hone, hother]
    rfl
  · rw [hone]
    exact Holds.putIn h hplace hv
  · rw [hone]
    exact Grows.putIn hplace v
  · intro _ w' hw'
    rw [hone] at hw'
    cases hw'
    rfl

private theorem alike_assign (h : σ.Holds own w.env) {x : String} (hx : σ.Sees own w.env x)
    {v : Value} (hv : σ.ReachesValue v w.env) :
    Alike σ own (fun _ _ => True) w (Eval.assign x v) := by
  have hother : (w.on (own ++ σ.other)).env.owner? x = w.env.owner? x := owner?_on h hx
  cases howner : w.env.owner? x with
  | none =>
    refine alike_congr (alike_raise h (.undefinedVariable x)) ?_ ?_
    · simp only [Eval.assign, howner]
    · simp only [Eval.assign, hother, howner]
  | some id =>
    have hplace : Place σ w.env id x := by
      rcases own_or_lower h hx howner with (hkeeps | hnew) | ⟨hfree, -⟩
      · exact .inr ⟨Env.binds_of_owner? howner, .inl hkeeps⟩
      · exact .inl hnew
      · exact .inr ⟨Env.binds_of_owner? howner, .inr hfree⟩
    refine Alike.weaken (alike_putIn h hplace hv ?_ ?_) fun _ _ _ => trivial
    · simp only [Eval.assign, howner]
    · simp only [Eval.assign, hother, howner]
      rfl

end Steps

/-! ### Scopes of the call -/

/-- The innermost scope was made for the call, and binds `top`; the other scopes of the call bind
`under`. -/
structure Inside (σ : Callers) (id : ScopeId) (rest : List ScopeId) (top under : List String)
    (e : Env) : Prop extends σ.Holds (id :: rest) e where
  made : σ.size ≤ id
  lt : id < e.scopes.size
  top : ∀ x ∈ top, (e.scope id).binds x = true
  under : ∀ x ∈ under, ∃ i ∈ rest, (e.scope i).binds x = true

section Scopes

variable {α : Type} {P : α → Env → Prop} {w : World} {id : ScopeId} {rest : List ScopeId}
variable {top under : List String}

private theorem Inside.step (h : Inside σ id rest top under e) (hholds : σ.Holds (id :: rest) e')
    (hgrows : σ.Grows e e') : Inside σ id rest top under e' := by
  refine ⟨hholds, h.made, Nat.lt_of_lt_of_le h.lt hgrows.size, ?_, ?_⟩
  · intro x hx
    exact hgrows.binds id x (h.top x hx)
  · intro x hx
    obtain ⟨i, hi, hbinds⟩ := h.under x hx
    exact ⟨i, hi, hgrows.binds i x hbinds⟩

private theorem Inside.cons (h : Inside σ id rest top under e) {xs : List String}
    (hxs : ∀ x ∈ xs, (e.scope id).binds x = true) : Inside σ id rest (xs ++ top) under e := by
  refine ⟨h.toHolds, h.made, h.lt, fun x hx => ?_, h.under⟩
  rcases List.mem_append.1 hx with hx | hx
  · exact hxs x hx
  · exact h.top x hx

private theorem Inside.exists_binds (h : Inside σ id rest top under e) :
    ∀ x ∈ top ++ under, ∃ i ∈ id :: rest, (e.scope i).binds x = true := by
  intro x hx
  rcases List.mem_append.1 hx with hx | hx
  · exact ⟨id, List.mem_cons_self, h.top x hx⟩
  · obtain ⟨i, hi, hbinds⟩ := h.under x hx
    exact ⟨i, List.mem_cons_of_mem id hi, hbinds⟩

private theorem Inside.sees {env : Env} (h : Inside σ id rest top under env) {e : Expr}
    (hfree : e.free (top ++ under) ⊆ σ.names) : ∀ x ∈ e.names, σ.Sees (id :: rest) env x := by
  intro x hx
  rcases Expr.mem_or_mem_free hx (top ++ under) with hbound | hx
  · exact .inr (h.exists_binds x hbound)
  · exact .inl (hfree hx)

private theorem alike_define (h : Inside σ id rest top under w.env) (x : String) {v : Value}
    (hv : σ.ReachesValue v w.env) :
    Alike σ (id :: rest) (fun _ e => (e.scope id).binds x = true) w (Eval.define x v) := by
  have htop : w.env.top = id := by
    rw [Env.top, h.stack]
    rfl
  have hplace : Place σ w.env id x := .inl h.made
  refine Alike.weaken (alike_putIn h.toHolds hplace hv ?_ rfl) fun _ e he => ?_
  · simp only [Eval.define, Env.define, htop]
  · rw [he, Env.scope_putIn_self h.lt]
    exact Scope.binds_put.2 (.inl rfl)

private theorem alike_defineAll (xs : List String) (vs : List Value)
    (hlength : vs.length = xs.length) (h : Inside σ id rest top under w.env)
    (hvs : ∀ v ∈ vs, σ.ReachesValue v w.env) :
    Alike σ (id :: rest) (fun _ e => ∀ x ∈ xs, (e.scope id).binds x = true) w
      (Eval.defineAll xs vs) := by
  induction xs generalizing vs w with
  | nil => exact alike_pure h.toHolds fun _ hx => (List.not_mem_nil hx).elim
  | cons x xs ih =>
    cases vs with
    | nil => cases hlength
    | cons v vs =>
      obtain ⟨hv, hvs⟩ := List.forall_mem_cons.1 hvs
      refine alike_bind (alike_define h x hv) fun _ w' hholds hgrows hx => ?_
      have hrest := ih vs (Nat.succ.inj hlength) (h.step hholds hgrows)
        fun u hu => hgrows.reachesValue (hvs u hu)
      refine hrest.growing.weaken fun _ e he => ?_
      exact List.forall_mem_cons.2 ⟨he.2.binds id x hx, he.1⟩

private theorem alike_capture (h : Inside σ id rest top under w.env) :
    Alike σ (id :: rest) (fun c e => σ.Own c ∧ ∀ x ∈ top, (e.scope c).binds x = true) w
      Eval.capture := by
  obtain ⟨⟨scopes, inner⟩, printed, trace⟩ := w
  obtain rfl : inner = id :: rest ++ σ.one := h.stack
  have htop : σ.Own (Env.top ⟨scopes, id :: rest ++ σ.one⟩) := .inr h.made
  refine ⟨rfl, Holds.snapshot h.toHolds htop, Grows.snapshot h.size, fun c w' hc => ?_⟩
  cases hc
  refine ⟨.inr h.size, fun x hx => ?_⟩
  have hcopy := Env.scope_snapshot_self ⟨scopes, id :: rest ++ σ.one⟩
  exact (congrArg (Scope.binds · x) hcopy).trans (h.top x hx)

/-- However what runs in a scope ends, the scope is left. -/
theorem within_eq_endOn {push : Env → Env} {act : Eval α} {w' : World}
    {inner : List ScopeId} (hpush : (⟨push w.env, w.printed, w.trace⟩ : World) = w')
    (h : (endState (act w')).env.inner = id :: inner) :
    Eval.within push act w = endOn inner (act w') := by
  subst hpush
  have henter : (do Eval.enter push; act : Eval α) w = act ⟨push w.env, w.printed, w.trace⟩ := rfl
  rw [Eval.within, henter]
  cases hres : act ⟨push w.env, w.printed, w.trace⟩ with
  | ok a w'' =>
    obtain ⟨⟨scopes, inner'⟩, printed, trace⟩ := w''
    rw [hres] at h
    obtain rfl : inner' = id :: inner := h
    rfl
  | error s w'' =>
    obtain ⟨⟨scopes, inner'⟩, printed, trace⟩ := w''
    rw [hres] at h
    obtain rfl : inner' = id :: inner := h
    rfl

private theorem alike_within (h : σ.Holds own w.env) {push : Env → Env} {scopes : Array Scope}
    (hpush : ∀ inner, push ⟨w.env.scopes, inner⟩ = ⟨scopes, id :: inner⟩)
    (hgrows : σ.Grows w.env ⟨scopes, id :: w.env.inner⟩)
    (hP : ∀ a scopes inner inner', P a ⟨scopes, inner⟩ → P a ⟨scopes, inner'⟩) {act : Eval α}
    (hact : Alike σ (id :: own) P ⟨⟨scopes, id :: w.env.inner⟩, w.printed, w.trace⟩ act) :
    Alike σ own P w (Eval.within push act) := by
  obtain ⟨⟨before, inner⟩, printed, trace⟩ := w
  obtain rfl : inner = own ++ σ.one := h.stack
  obtain ⟨hsame, hholds, hgrows', hvalue⟩ := hact
  have hone : Eval.within push act ⟨⟨before, own ++ σ.one⟩, printed, trace⟩ =
      endOn (own ++ σ.one) (act ⟨⟨scopes, id :: (own ++ σ.one)⟩, printed, trace⟩) :=
    within_eq_endOn (by rw [hpush]) hholds.stack
  have hinner : (endState (act ⟨⟨scopes, id :: (own ++ σ.other)⟩, printed, trace⟩)).env.inner =
      id :: (own ++ σ.other) := by
    rw [show act ⟨⟨scopes, id :: (own ++ σ.other)⟩, printed, trace⟩ = _ from hsame, endState_endOn]
    rfl
  have hother : Eval.within push act ⟨⟨before, own ++ σ.other⟩, printed, trace⟩ =
      endOn (own ++ σ.other) (act ⟨⟨scopes, id :: (own ++ σ.other)⟩, printed, trace⟩) :=
    within_eq_endOn (by rw [hpush]) hinner
  constructor
  · rw [hone, endOn_endOn]
    exact hother.trans ((congrArg (endOn (own ++ σ.other)) hsame).trans (endOn_endOn ..))
  · rw [hone, endState_endOn]
    exact ⟨hholds.toAgree.of_scope (Nat.le_refl _) fun _ => rfl, rfl,
      fun i hi => hholds.own i (List.mem_cons_of_mem id hi)⟩
  · rw [hone, endState_endOn]
    exact (hgrows.trans hgrows').trans (.of_scope (Nat.le_refl _) fun _ => rfl)
  · rw [hone]
    cases hres : act ⟨⟨scopes, id :: (own ++ σ.one)⟩, printed, trace⟩ with
    | ok a w' =>
      intro b w'' hb
      cases hb
      exact hP a w'.env.scopes _ _ (hvalue a w' hres)
    | error s w' =>
      intro b w'' hb
      cases hb

private theorem Grows.reachesFlow (h : σ.Grows e e') {flow : Flow} (hflow : σ.ReachesFlow flow e) :
    σ.ReachesFlow flow e' := by
  cases flow with
  | next => trivial
  | value v => exact h.reachesValue hflow
  | returned v => exact h.reachesValue hflow

private theorem inside_push (h : σ.Holds own e) (hunder : ∀ x ∈ under, ∃ i ∈ own,
    (e.scope i).binds x = true) : Inside σ e.scopes.size own [] under e.push := by
  have hsize : e.scopes.size ≤ e.push.scopes.size := by
    rw [Env.size_push]
    exact Nat.le_succ _
  constructor
  · refine ⟨h.toAgree.of_scope hsize (Env.scope_push e), ?_, ?_⟩
    · rw [Env.inner_push, h.stack]
      rfl
    · exact List.forall_mem_cons.2 ⟨.inr h.size, h.own⟩
  · exact h.size
  · rw [Env.size_push]
    exact Nat.lt_succ_self _
  · intro x hx
    cases hx
  · intro x hx
    obtain ⟨i, hi, hbinds⟩ := hunder x hx
    exact ⟨i, hi, (Env.scope_push e i).symm ▸ hbinds⟩

private theorem alike_push (h : σ.Holds own w.env)
    (hunder : ∀ x ∈ under, ∃ i ∈ own, (w.env.scope i).binds x = true) {act : Eval Flow}
    (hact : ∀ w', Inside σ w.env.scopes.size own [] under w'.env → σ.Grows w.env w'.env →
      Alike σ (w.env.scopes.size :: own) σ.ReachesFlow w' act) :
    Alike σ own σ.ReachesFlow w (Eval.within Env.push act) := by
  have hsize : w.env.scopes.size ≤ w.env.push.scopes.size := by
    rw [Env.size_push]
    exact Nat.le_succ _
  have hgrows : σ.Grows w.env w.env.push := .of_scope hsize (Env.scope_push w.env)
  refine alike_within h (fun _ => rfl) hgrows (fun flow _ _ _ hflow => ?_)
    (hact _ (inside_push h hunder) hgrows)
  cases flow <;> exact hflow

private theorem alike_repeatWhile (h : σ.Holds own w.env) {test : Eval Bool} {body : Eval Flow}
    (htest : ∀ w', σ.Holds own w'.env → σ.Grows w.env w'.env →
      Alike σ own (fun _ _ => True) w' test)
    (hbody : ∀ w', σ.Holds own w'.env → σ.Grows w.env w'.env →
      Alike σ own σ.ReachesFlow w' body)
    (rounds : Nat) {last : Flow} (hlast : σ.ReachesFlow last w.env) :
    Alike σ own σ.ReachesFlow w (Eval.repeatWhile test body rounds last) := by
  induction rounds generalizing w last with
  | zero => exact alike_throw h _
  | succ rounds ih =>
    refine alike_bind (htest w h (.refl _)) fun holds w₁ h₁ hgrows₁ _ => ?_
    cases holds with
    | false => exact alike_pure h₁ (hgrows₁.reachesFlow hlast)
    | true =>
      refine alike_bind (hbody w₁ h₁ hgrows₁) fun flow w₂ h₂ hgrows₂ hflow => ?_
      have hgrows := hgrows₁.trans hgrows₂
      have hagain (flow : Flow) (hflow : σ.ReachesFlow flow w₂.env) :=
        ih h₂ (fun w' h' hg => htest w' h' (hgrows.trans hg))
          (fun w' h' hg => hbody w' h' (hgrows.trans hg)) hflow
      cases flow with
      | returned v => exact alike_pure h₂ hflow
      | next => exact hagain .next hflow
      | value v => exact hagain (.value v) hflow

end Scopes

/-! ### Calls -/

section Calls

variable {ctx : Context} {w : World}

private theorem reachesValue_of_isAtom {v : Value} (hv : v.isAtom = true) (e : Env) :
    σ.ReachesValue v e := by
  intro f hf
  subst hf
  cases hv

private theorem alike_invoke (hctx : Enters σ ctx) (h : σ.Holds own w.env) {f : Function}
    {args : List Value} (hf : σ.Reaches w.env f) (hargs : ∀ v ∈ args, σ.ReachesValue v w.env)
    (hlength : args.length = f.arity) :
    Alike σ own σ.ReachesValue w (Eval.invoke ctx f args) := by
  cases f with
  | builtin fn =>
    exact alike_lift h fun v hv => reachesValue_of_isAtom (Builtin.isAtom_apply hv) _
  | user name params body closure =>
    have hclosure : σ.Own closure := hf.1 closure rfl
    have hshared : σ.Holds (closure :: own) (w.env.pushShared closure) := by
      refine ⟨h.toAgree.of_scope (Nat.le_refl _) fun _ => rfl, ?_, ?_⟩
      · rw [Env.inner_pushShared, h.stack]
        rfl
      · exact List.forall_mem_cons.2 ⟨hclosure, h.own⟩
    have hgrows : σ.Grows w.env (w.env.pushShared closure) :=
      .of_scope (Nat.le_refl _) fun _ => rfl
    have hbody : Alike σ own σ.ReachesFlow w
        (Eval.within (Env.pushShared closure) (Eval.within Env.push do
          Eval.defineAll params args
          ctx.enter body)) := by
      refine alike_within h (fun _ => rfl) hgrows (fun flow _ _ _ hflow => ?_) ?_
      · cases flow <;> exact hflow
      · refine alike_push (w := ⟨w.env.pushShared closure, w.printed, w.trace⟩) hshared
          (List.forall_mem_nil _) fun w₁ h₁ hgrows₁ => ?_
        have hargs₁ : ∀ v ∈ args, σ.ReachesValue v w₁.env := fun v hv =>
          (hgrows.trans hgrows₁).reachesValue (hargs v hv)
        refine alike_bind (alike_defineAll params args hlength h₁ hargs₁) ?_
        intro _ w₂ h₂ hgrows₂ hparams
        refine hctx (params ++ (w.env.scope closure).names) body h₂ ?_ hf.2
        intro x hx
        rcases List.mem_append.1 hx with hx | hx
        · exact ⟨_, List.mem_cons_self, hparams x hx⟩
        · have hbinds := ((hgrows.trans hgrows₁).trans hgrows₂).binds closure x
            (Scope.binds_iff_mem_names.2 hx)
          exact ⟨closure, List.mem_cons_of_mem _ List.mem_cons_self, hbinds⟩
    refine alike_bind hbody fun flow w' h' _ hflow => alike_pure h' ?_
    cases flow with
    | next => exact reachesValue_of_isAtom rfl _
    | value v => exact hflow
    | returned v => exact hflow

private theorem alike_apply (hctx : Enters σ ctx) (h : σ.Holds own w.env) {f : Function}
    {args : List Value} (hf : σ.Reaches w.env f) (hargs : ∀ v ∈ args, σ.ReachesValue v w.env) :
    Alike σ own σ.ReachesValue w (Eval.apply ctx f args) := by
  refine alike_bind (alike_traceCall h ctx f args) fun _ w₁ h₁ hgrows₁ _ => ?_
  refine alike_bind (alike_checkArity h₁ f args) fun _ w₂ h₂ hgrows₂ hlength => ?_
  have hgrows := hgrows₁.trans hgrows₂
  exact alike_invoke hctx h₂ (hgrows.reaches hf) (fun v hv => hgrows.reachesValue (hargs v hv))
    hlength

end Calls

/-! ### Expressions -/

variable {ctx : Context}

mutual

private theorem alike_expr (hctx : Enters σ ctx) :
    (e : Expr) → {w : World} → σ.Holds own w.env → (∀ x ∈ e.names, σ.Sees own w.env x) →
      Alike σ own σ.ReachesValue w (e.eval ctx)
  | .literal l, _, h, _ => alike_pure h (reachesValue_of_isAtom l.isAtom_value _)
  | .name x, _, h, hx => alike_lookup h (hx x List.mem_cons_self)
  | .unary op e, _, h, hx =>
    alike_bind (alike_expr hctx e h hx) fun _ _ h' _ _ =>
      alike_lift h' fun _ hv => reachesValue_of_isAtom (Value.isAtom_unary hv) _
  | .binary op a b, w, h, hx => by
    obtain ⟨ha, hb⟩ := List.forall_mem_append.1 hx
    have hlhs := alike_expr hctx a h ha
    have hrhs {w' : World} (h' : σ.Holds own w'.env) (hgrows : σ.Grows w.env w'.env) :=
      alike_expr hctx b h' fun x hx => hgrows.sees (hb x hx)
    have hatom {w' : World} (h' : σ.Holds own w'.env) (holds : Bool) :
        Alike σ own σ.ReachesValue w' (pure (Value.bool holds)) :=
      alike_pure h' (reachesValue_of_isAtom rfl _)
    -- the right operand of a connective, of which only the truth counts
    have htest {w' : World} (h' : σ.Holds own w'.env) (hgrows : σ.Grows w.env w'.env) :
        Alike σ own σ.ReachesValue w'
          (do let v ← b.eval ctx; let holds ← Eval.lift v.truth; pure (Value.bool holds)) :=
      alike_bind (hrhs h' hgrows) fun v _ h₁ _ _ =>
        alike_bind (alike_truth h₁ v) fun holds _ h₂ _ _ => hatom h₂ holds
    cases op with
    | and =>
      refine alike_bind hlhs fun lhs _ h₁ hgrows₁ _ =>
        alike_bind (alike_truth h₁ lhs) fun holds _ h₂ hgrows₂ _ => ?_
      cases holds with
      | false => exact hatom h₂ false
      | true => exact htest h₂ (hgrows₁.trans hgrows₂)
    | or =>
      refine alike_bind hlhs fun lhs _ h₁ hgrows₁ _ =>
        alike_bind (alike_truth h₁ lhs) fun holds _ h₂ hgrows₂ _ => ?_
      cases holds with
      | false => exact htest h₂ (hgrows₁.trans hgrows₂)
      | true => exact hatom h₂ true
    | _ =>
      exact alike_bind hlhs fun lhs _ h₁ hgrows₁ _ =>
        alike_bind (hrhs h₁ hgrows₁) fun rhs _ h₂ _ _ =>
          alike_lift h₂ fun _ hv => reachesValue_of_isAtom (Value.isAtom_binary hv) _
  | .access _ _, _, h, _ => alike_raise h _
  | .assign target e, _, h, hx => by
    obtain ⟨htarget, he⟩ := List.forall_mem_append.1 hx
    refine alike_bind (alike_expr hctx e h he) fun v _ h₁ hgrows₁ hv => ?_
    cases target with
    | name x =>
      have hseen := hgrows₁.sees (htarget x List.mem_cons_self)
      refine alike_bind (alike_assign h₁ hseen hv) fun _ _ h₂ hgrows₂ _ => ?_
      exact alike_pure h₂ (hgrows₂.reachesValue hv)
    | _ => exact alike_raise h₁ _
  | .call callee args, _, h, hx => by
    obtain ⟨hcallee, hargs⟩ := List.forall_mem_cons.1 hx
    refine alike_bind (alike_lookup h hcallee) fun v _ h₁ hgrows₁ hv => ?_
    refine alike_bind (alike_function h₁ hv) fun f _ h₂ hgrows₂ hf => ?_
    have hseen := fun x hx => (hgrows₁.trans hgrows₂).sees (hargs x hx)
    refine alike_bind (alike_exprs hctx args h₂ hseen) fun vs _ h₃ hgrows₃ hvs => ?_
    exact alike_apply hctx h₃ (hgrows₃.reaches hf) hvs
  | .hole, _, h, _ => alike_raise h _
termination_by structural e => e

private theorem alike_exprs (hctx : Enters σ ctx) :
    (es : List Expr) → {w : World} → σ.Holds own w.env →
      (∀ x ∈ Expr.namesAll es, σ.Sees own w.env x) →
      Alike σ own (fun vs e => ∀ v ∈ vs, σ.ReachesValue v e) w (Expr.evalAll ctx es)
  | [], _, h, _ => alike_pure h fun _ hv => (List.not_mem_nil hv).elim
  | e :: es, _, h, hx => by
    obtain ⟨he, hes⟩ := List.forall_mem_append.1 hx
    refine alike_bind (alike_expr hctx e h he) fun v _ h₁ hgrows₁ hv => ?_
    refine alike_bind (alike_exprs hctx es h₁ fun x hx => hgrows₁.sees (hes x hx)) ?_
    intro vs _ h₂ hgrows₂ hvs
    exact alike_pure h₂ (List.forall_mem_cons.2 ⟨hgrows₂.reachesValue hv, hvs⟩)
termination_by structural es => es

end

/-! ### Statements -/

section Statements

variable {w : World} {id : ScopeId} {rest : List ScopeId} {top under : List String}

-- How a statement ends: with what is within reach, and with what it declares bound.
private def Done (σ : Callers) (s : Stmt) (id : ScopeId) (flow : Flow) (e : Env) : Prop :=
  σ.ReachesFlow flow e ∧ ∀ x ∈ s.binds, (e.scope id).binds x = true

private theorem alike_done {s : Stmt} (hs : s.binds = []) {act : Eval Flow}
    (h : Alike σ own σ.ReachesFlow w act) : Alike σ own (Done σ s id) w act := by
  refine h.weaken fun flow e hflow => ⟨hflow, ?_⟩
  rw [hs]
  exact List.forall_mem_nil _

private theorem alike_declare (h : Inside σ id rest top under w.env) {s : Stmt} {x : String}
    (hs : s.binds = [x]) {v : Value} (hv : σ.ReachesValue v w.env) :
    Alike σ (id :: rest) (Done σ s id) w (do Eval.define x v; pure Flow.next) := by
  refine alike_bind (alike_define h x hv) fun _ w' h' _ hbinds => alike_pure h' ⟨trivial, ?_⟩
  rw [hs]
  exact List.forall_mem_singleton.2 hbinds

private theorem alike_test (hctx : Enters σ ctx) (h : Inside σ id rest top under w.env)
    {cond : Expr} (hfree : cond.free (top ++ under) ⊆ σ.names) :
    Alike σ (id :: rest) (fun _ _ => True) w (do let v ← cond.eval ctx; Eval.lift v.truth) :=
  alike_bind (alike_expr hctx cond h.toHolds (h.sees hfree)) fun v _ h' _ _ => alike_truth h' v

end Statements

mutual

private theorem alike_stmt (hctx : Enters σ ctx) :
    (s : Stmt) → {w : World} → {id : ScopeId} → {rest : List ScopeId} → {top under : List String} →
      Inside σ id rest top under w.env → s.free top under ⊆ σ.names →
      Alike σ (id :: rest) (Done σ s id) w (s.exec ctx)
  | .expr e, _, _, _, _, _, h, hfree =>
    alike_done rfl (alike_bind (alike_expr hctx e h.toHolds (h.sees hfree)) fun _ _ h' _ hv =>
      alike_pure h' hv)
  | .print e, _, _, _, _, _, h, hfree =>
    alike_done rfl (alike_bind (alike_expr hctx e h.toHolds (h.sees hfree)) fun v _ h' _ _ =>
      alike_bind (alike_print h' v) fun _ _ h'' _ _ => alike_pure h'' trivial)
  | .block body, _, _, _, _, _, h, hfree =>
    alike_done rfl (alike_push h.toHolds h.exists_binds fun _ h' _ =>
      alike_stmts hctx body h' hfree trivial)
  | .var x none, _, _, _, _, _, h, _ =>
    alike_declare h rfl (reachesValue_of_isAtom rfl _)
  | .var x (some e), _, _, _, _, _, h, hfree =>
    alike_bind (alike_expr hctx e h.toHolds (h.sees hfree)) fun _ _ h' hgrows hv =>
      alike_declare (h.step h' hgrows) rfl hv
  | .branch cond yes no, _, _, _, _, _, h, hfree => by
    obtain ⟨hrest, hno⟩ := List.append_subset.1 hfree
    obtain ⟨hcond, hyes⟩ := List.append_subset.1 hrest
    refine alike_done rfl ?_
    refine alike_bind (alike_expr hctx cond h.toHolds (h.sees hcond)) fun v _ h₁ hgrows₁ _ => ?_
    refine alike_bind (alike_truth h₁ v) fun holds _ h₂ hgrows₂ _ => ?_
    have hinside := h.step h₂ (hgrows₁.trans hgrows₂)
    cases holds with
    | false =>
      exact alike_push h₂ hinside.exists_binds fun _ h' _ => alike_stmts hctx no h' hno trivial
    | true =>
      exact alike_push h₂ hinside.exists_binds fun _ h' _ => alike_stmts hctx yes h' hyes trivial
  | .loop cond body, _, _, _, _, _, h, hfree => by
    obtain ⟨hcond, hbody⟩ := List.append_subset.1 hfree
    refine alike_done rfl (alike_repeatWhile h.toHolds ?_ ?_ _ trivial)
    · intro _ h' hgrows
      exact alike_test hctx (h.step h' hgrows) hcond
    · intro _ h' hgrows
      exact alike_push h' (h.step h' hgrows).exists_binds fun _ h'' _ =>
        alike_stmts hctx body h'' hbody trivial
  | .func name params body, _, _, _, _, _, h, hfree => by
    refine alike_bind (alike_capture h) fun closure w₁ h₁ hgrows₁ hcopy => ?_
    refine alike_declare (h.step h₁ hgrows₁) rfl fun f hf => ?_
    obtain rfl := Value.func.inj hf
    refine ⟨?_, List.Subset.trans (Function.free_subset hcopy.2 name params body) hfree⟩
    rintro c ⟨⟩
    exact hcopy.1
  | .builtin name fn, _, _, _, _, _, h, _ => by
    refine alike_declare h rfl fun f hf => ?_
    obtain rfl := Value.func.inj hf
    exact ⟨fun c hc => (Option.not_mem_none c hc).elim, List.nil_subset _⟩
  | .ret none, _, _, _, _, _, h, _ =>
    alike_done rfl (alike_pure h.toHolds (reachesValue_of_isAtom rfl _))
  | .ret (some e), _, _, _, _, _, h, hfree =>
    alike_done rfl (alike_bind (alike_expr hctx e h.toHolds (h.sees hfree)) fun _ _ h' _ hv =>
      alike_pure h' hv)
termination_by structural s => s

private theorem alike_stmts (hctx : Enters σ ctx) :
    (ss : List Stmt) → {w : World} → {id : ScopeId} → {rest : List ScopeId} →
      {top under : List String} → {last : Flow} → Inside σ id rest top under w.env →
      Stmt.freeAll top under ss ⊆ σ.names → σ.ReachesFlow last w.env →
      Alike σ (id :: rest) σ.ReachesFlow w (Stmt.execAll ctx last ss)
  | [], _, _, _, _, _, _, h, _, hlast => alike_pure h.toHolds hlast
  | s :: ss, _, _, _, _, _, _, h, hfree, _ => by
    obtain ⟨hs, hss⟩ := List.append_subset.1 hfree
    refine alike_bind (alike_stmt hctx s h hs) fun flow _ h' hgrows hdone => ?_
    have hinside := (h.step h' hgrows).cons hdone.2
    cases flow with
    | returned v => exact alike_pure h' hdone.1
    | next => exact alike_stmts hctx ss hinside hss trivial
    | value v => exact alike_stmts hctx ss hinside hss hdone.1
termination_by structural ss => ss

end

private theorem enters_ofCalls (σ : Callers) (rounds : Nat) (tracing : Bool) (calls : Nat) :
    Enters σ (.ofCalls rounds tracing calls) := by
  induction calls with
  | zero =>
    intro own w bound body h _ _
    exact alike_throw h _
  | succ calls ih =>
    intro own w bound body h hbound hfree
    exact alike_push h hbound fun _ h' _ => alike_stmts ih body h' hfree trivial

/-- However many calls may be nested, a function that is called on two stacks ends alike on both if
the names that can be free in functions within reach are bound in the same scopes there: with the
same result or stop, the same text printed and the same in all scopes. Each stack is left as it was.
And in a scope that no function within reach keeps, no binding is changed but of such a name. -/
theorem apply_alike {σ : Callers} {w : World} (hstack : w.env.inner = σ.one)
    (h : σ.Agree w.env) {f : Function} {args : List Value} (hf : σ.Reaches w.env f)
    (hargs : ∀ v ∈ args, σ.ReachesValue v w.env) (rounds : Nat) (tracing : Bool) (calls : Nat) :
    Eval.apply (.ofCalls rounds tracing calls) f args (w.on σ.other) =
        endOn σ.other (Eval.apply (.ofCalls rounds tracing calls) f args w) ∧
      (endState (Eval.apply (.ofCalls rounds tracing calls) f args w)).env.inner = σ.one ∧
      ∀ id < σ.size, ¬σ.keeps id → ∀ x, x ∉ σ.names →
        ((endState (Eval.apply (.ofCalls rounds tracing calls) f args w)).env.scope id).get? x =
          (w.env.scope id).get? x := by
  have hholds : σ.Holds [] w.env := ⟨h, hstack, List.forall_mem_nil _⟩
  have halike := alike_apply (enters_ofCalls σ rounds tracing calls) hholds hf hargs
  exact ⟨halike.same, halike.holds.stack, halike.grows.frame⟩

/-- A caller's variable that has the name of a parameter is not seen, and a global one is. -/
theorem apply_alike_parameter :
    let f := Function.user "f" ["y"] [.ret (some (.binary .plus (.name "y") (.name "n")))] 1
    let w : World := ⟨⟨#[[("n", .int 2)], [], [("y", .int 7)]], [2]⟩, "", #[]⟩
    let σ : Callers := ⟨[2], [], 3, ["n"], (· = 1)⟩
    σ.Agree w.env ∧ σ.Reaches w.env f ∧
      Eval.apply (.ofCalls 2 false 2) f [.int 5] (w.on []) =
        endOn [] (Eval.apply (.ofCalls 2 false 2) f [.int 5] w) ∧
      ∃ w', Eval.apply (.ofCalls 2 false 2) f [.int 5] w = .ok (.int 7) w' := by
  intro f w σ
  have hagree : σ.Agree w.env := by
    constructor
    · exact Nat.le_refl 3
    · intro id hid
      change id ∈ [2, 0, 0] at hid
      simp only [List.mem_cons, List.not_mem_nil, or_false] at hid
      rcases hid with rfl | rfl | rfl <;> decide
    · intro x hx
      obtain rfl := List.mem_singleton.1 hx
      rfl
    · intro x hx id hid g hg
      obtain rfl := List.mem_singleton.1 hx
      cases hid
      cases hg
    · intro id hid x g hg
      have hscope : w.env.scope id = [] := by
        rcases hid with rfl | hid
        · rfl
        · exact Env.scope_of_size_le hid
      rw [hscope] at hg
      cases hg
  have hf : σ.Reaches w.env f := by
    refine ⟨fun c hc => .inl ?_, fun x hx => ?_⟩
    · exact (Option.some.inj hc).symm
    · exact hx
  have hargs : ∀ v ∈ [Value.int 5], σ.ReachesValue v w.env := by
    intro v hv g hg
    obtain rfl := List.mem_singleton.1 hv
    cases hg
  exact ⟨hagree, hf, (apply_alike rfl hagree hf hargs 2 false 2).1, _, rfl⟩

end Callers

/-- A variable of a caller is seen where a function leaves its name free: what a function does
depends on the block that it is called in. -/
theorem apply_sees_caller :
    let w := endState (Program.exec ⟨2, 2⟩ false [.func "f" [] [.ret (some (.name "x"))]] .start)
    let caller : World := ⟨w.env.push.define "x" (.int 1), w.printed, w.trace⟩
    let f := Function.user "f" [] [.ret (some (.name "x"))] 1
    w.env.get? "f" = some (.func f) ∧ caller.env.get? "f" = some (.func f) ∧
      (∃ w', Eval.apply (.ofCalls 2 false 2) f [] w =
        .error (.fault (.undefinedVariable "x")) w') ∧
      (∃ w', Eval.apply (.ofCalls 2 false 2) f [] caller = .ok (.int 1) w') ∧
      ∃ w', Program.exec ⟨2, 2⟩ false
        [.block [.var "x" (some (.literal (.int 1))), .expr (.call "f" [])]] w =
          .ok (.value (.int 1)) w' := by
  refine ⟨rfl, rfl, ⟨_, rfl⟩, ⟨_, rfl⟩, ⟨_, rfl⟩⟩

end Lox
