import Lox.Proofs.Deeds
import Lox.Proofs.Visibility

/-!
# Where names are found

Evaluation that keeps a list of the scopes that matter to it: those in which it finds a name to read
or to assign, and those in which it binds a name or which it copies. A scope of the stack that does
not matter to an evaluation might as well not lie there.
-/

namespace Lox

/-- The state of a run that lists the scopes that matter to it, the latest first. -/
structure Search where
  world : World
  found : List ScopeId

/-- A step of such a run. -/
abbrev Searching := EStateM Stop Search

namespace Searching

/-- A step to which a scope matters. -/
def touching {α : Type} (scope? : Env → Option ScopeId) (act : Eval α) : Searching α :=
  fun ⟨w, found⟩ => mapEnd (⟨·, (scope? w.env).toList ++ found⟩) (act w)

/-- Binds a variable in the innermost scope, which matters. -/
def define (x : String) (v : Value) : Searching Unit := touching (some ·.top) (Eval.define x v)

/-- A step to which no scope matters. -/
def ofEval {α : Type} (act : Eval α) : Searching α := touching (fun _ => none) act

/-- Runs `act` with one more scope on the stack, and takes that scope away again, however `act`
ends. -/
def within (push : Env → Env) (act : Searching Flow) : Searching Flow :=
  bracket (ofEval (Eval.enter push)) (ofEval Eval.leave) act

end Searching

/-- The operations of evaluation, with a list of the scopes that matter. -/
def Machine.search (tracing : Bool) : Machine Searching where
  tooDeep := throw .tooDeep
  exhausted := throw .exhausted
  raise f := Searching.ofEval (Eval.raise f)
  ask _ result := Searching.ofEval (Eval.lift result)
  give := pure
  lookup x := Searching.touching (·.owner? x) (Eval.lookup x)
  define := Searching.define
  assign x v := Searching.touching (·.owner? x) (Eval.assign x v)
  declare name params body := do
    let closure ← Searching.touching (some ·.top) Eval.capture
    Searching.define name (.func (.user name params body closure))
  block := Searching.within Env.push
  parameters := Searching.within Env.push
  captured _ closure := Searching.within (Env.pushShared closure)
  print v := Searching.ofEval (Eval.print v)
  note f args := Searching.ofEval (Eval.noteWhere tracing f args)

/-- Calls a function and lists the scopes that matter to the call. -/
def Searching.call (limits : Limits) (tracing : Bool) : Calling Searching :=
  (Machine.search tracing).call (Machine.search tracing).invoke limits.rounds limits.calls

/-- What evaluation takes from its surroundings under these limits. -/
abbrev Limits.context (limits : Limits) (tracing : Bool) : Context :=
  .ofCalls limits.rounds tracing limits.calls

/-- The scopes that matter to statements that are run in the world `w`. -/
def Stmt.found (limits : Limits) (tracing : Bool) (last : Flow) (ss : List Stmt) (w : World) :
    List ScopeId :=
  (endState (Stmt.allOn (.search tracing) (Searching.call limits tracing) limits.rounds last ss
    ⟨w, []⟩)).found

namespace Env

variable {e : Env} {own below : List ScopeId} {id : ScopeId}

/-- A name that is not found in a scope of the stack is found where it is, without that scope. -/
theorem owner?_without {x : String} (h : e.inner = own ++ id :: below)
    (hid : e.owner? x ≠ some id) : owner? ⟨e.scopes, own ++ below⟩ x = e.owner? x := by
  have hstack : e.stack = own ++ id :: (below ++ [global]) := by
    rw [stack, h, List.append_assoc, List.cons_append]
  have hstack' : stack ⟨e.scopes, own ++ below⟩ = own ++ (below ++ [global]) :=
    List.append_assoc ..
  rw [owner?_eq_find?, hstack] at hid
  rw [owner?_eq_find?, owner?_eq_find?, hstack, hstack']
  simp only [List.find?_append, List.find?_cons] at hid ⊢
  show (own.find? fun i => (e.scope i).binds x).or _ = _
  cases hown : own.find? fun i => (e.scope i).binds x with
  | some i => rfl
  | none =>
    rw [hown] at hid
    cases hbinds : (e.scope id).binds x with
    | false => rfl
    | true =>
      rw [hbinds] at hid
      exact (hid rfl).elim

/-- The innermost scope stays so without a scope below it. -/
theorem top_without (h : e.inner = own ++ id :: below) (hid : some e.top ≠ some id) :
    top ⟨e.scopes, own ++ below⟩ = e.top := by
  cases own with
  | nil =>
    rw [top, h] at hid
    exact (hid rfl).elim
  | cons i own =>
    rw [top, top, h]
    rfl

end Env

/-! ### Searching and evaluation -/

/-- A step that searches does what the step of evaluation does, which leaves the stack as it is, and
does the same without a scope that does not matter to it. -/
def Searches {α : Type} (act : Searching α) (plain : Eval α) : Prop :=
  ∀ w found, ∃ new, act ⟨w, found⟩ = mapEnd (⟨·, new ++ found⟩) (plain w) ∧
    (endState (plain w)).env.inner = w.env.inner ∧
    ∀ id own below, w.env.inner = own ++ id :: below → id ∉ new →
      plain (w.on (own ++ below)) = endOn (own ++ below) (plain w)

section Rules

variable {α β : Type}

private theorem searches_pure (a : α) : Searches (pure a) (pure a) := fun _ _ =>
  ⟨[], rfl, rfl, fun _ _ _ _ _ => rfl⟩

private theorem searches_throw (s : Stop) : Searches (throw s : Searching α) (throw s) :=
  fun _ _ => ⟨[], rfl, rfl, fun _ _ _ _ _ => rfl⟩

private theorem searches_bind {act : Searching α} {plain : Eval α} {next : α → Searching β}
    {plainNext : α → Eval β} (hact : Searches act plain)
    (hnext : ∀ a, Searches (next a) (plainNext a)) :
    Searches (act >>= next) (plain >>= plainNext) := by
  intro w found
  obtain ⟨new, hsame, hstack, hwithout⟩ := hact w found
  cases hres : plain w with
  | error s w₁ =>
    rw [hres] at hsame hstack hwithout
    refine ⟨new, ?_, ?_, fun id own below hinner hid => ?_⟩
    · rw [bind_of_error hres]
      simp only [bind, EStateM.bind, hsame, mapEnd]
    · rw [bind_of_error hres]
      exact hstack
    · rw [bind_of_error hres, bind_of_error (hwithout id own below hinner hid)]
      rfl
  | ok a w₁ =>
    rw [hres] at hsame hstack hwithout
    obtain ⟨new', hsame', hstack', hwithout'⟩ := hnext a w₁ (new ++ found)
    refine ⟨new' ++ new, ?_, ?_, fun id own below hinner hid => ?_⟩
    · rw [bind_of_ok hres, List.append_assoc]
      simp only [bind, EStateM.bind, hsame, mapEnd]
      exact hsame'
    · rw [bind_of_ok hres]
      exact hstack'.trans hstack
    · obtain ⟨hid', hid⟩ := not_or.1 (mt List.mem_append.2 hid)
      rw [bind_of_ok hres, bind_of_ok (hwithout id own below hinner hid)]
      exact hwithout' id own below (hstack.trans hinner) hid'

private theorem searches_touching (scope? : Env → Option ScopeId) (act : Eval α)
    (hstack : ∀ w, (endState (act w)).env.inner = w.env.inner)
    (hwithout : ∀ w id own below, w.env.inner = own ++ id :: below → scope? w.env ≠ some id →
      act (w.on (own ++ below)) = endOn (own ++ below) (act w)) :
    Searches (Searching.touching scope? act) act := by
  intro w found
  refine ⟨(scope? w.env).toList, rfl, hstack w, fun id own below hinner hid => ?_⟩
  exact hwithout w id own below hinner fun hscope => hid (Option.mem_toList.2 hscope)

private theorem searches_ofEval {act : Eval α}
    (hstack : ∀ w, (endState (act w)).env.inner = w.env.inner)
    (hon : ∀ w inner, act (w.on inner) = endOn inner (act w)) :
    Searches (Searching.ofEval act) act :=
  searches_touching _ act hstack fun w _ _ _ _ _ => hon w _

private theorem searches_raise (f : Fault) :
    Searches (Searching.ofEval (Eval.raise f)) (Eval.raise f : Eval α) :=
  searches_ofEval (fun _ => rfl) fun _ _ => rfl

private theorem searches_lift (result : Except Fault α) :
    Searches (Searching.ofEval (Eval.lift result)) (Eval.lift result) := by
  cases result with
  | ok a => exact searches_ofEval (fun _ => rfl) fun _ _ => rfl
  | error f => exact searches_raise f

private theorem searches_print (v : Value) :
    Searches (Searching.ofEval (Eval.print v)) (Eval.print v) := by
  unfold Eval.print
  cases v.text? with
  | some text => exact searches_ofEval (fun _ => rfl) fun _ _ => rfl
  | none => exact searches_ofEval (fun _ => rfl) fun _ _ => rfl

private theorem searches_note (tracing : Bool) (f : Function) (args : List Value) :
    Searches (Searching.ofEval (Eval.noteWhere tracing f args))
      (Eval.noteWhere tracing f args) := by
  unfold Eval.noteWhere Eval.noteCall
  cases tracing with
  | false => exact searches_ofEval (fun _ => rfl) fun _ _ => rfl
  | true =>
    cases Eval.texts args with
    | some ss => exact searches_ofEval (fun _ => rfl) fun _ _ => rfl
    | none => exact searches_ofEval (fun _ => rfl) fun _ _ => rfl

private theorem searches_lookup (x : String) :
    Searches (Searching.touching (·.owner? x) (Eval.lookup x)) (Eval.lookup x) := by
  refine searches_touching _ _ (fun w => ?_) fun w id own below hinner hid => ?_
  · unfold Eval.lookup
    cases w.env.get? x <;> rfl
  · have hget : (w.on (own ++ below)).env.get? x = w.env.get? x := by
      show Env.get? ⟨w.env.scopes, own ++ below⟩ x = _
      rw [Env.get?, Env.get?, Env.owner?_without hinner hid]
      rfl
    unfold Eval.lookup
    rw [hget]
    cases w.env.get? x <;> rfl

private theorem searches_assign (x : String) (v : Value) :
    Searches (Searching.touching (·.owner? x) (Eval.assign x v)) (Eval.assign x v) := by
  refine searches_touching _ _ (fun ⟨env, printed, trace⟩ => ?_)
    fun w id own below hinner hid => ?_
  · unfold Eval.assign
    cases howner : env.owner? x <;> simp only [howner] <;> rfl
  · have howner : (w.on (own ++ below)).env.owner? x = w.env.owner? x :=
      Env.owner?_without hinner hid
    unfold Eval.assign
    simp only [howner]
    cases w.env.owner? x <;> rfl

private theorem searches_define (x : String) (v : Value) :
    Searches (Searching.define x v) (Eval.define x v) := by
  refine searches_touching _ _ (fun _ => rfl) fun w id own below hinner hid => ?_
  have htop := Env.top_without hinner hid
  show EStateM.Result.ok ()
    (World.mk (Env.putIn (Env.top ⟨w.env.scopes, own ++ below⟩) x v _) _ _) = _
  rw [htop]
  rfl

private theorem searches_capture :
    Searches (Searching.touching (some ·.top) Eval.capture) Eval.capture := by
  refine searches_touching _ _ (fun _ => rfl) fun w id own below hinner hid => ?_
  have htop := Env.top_without hinner hid
  show EStateM.Result.ok w.env.scopes.size (World.mk ⟨w.env.scopes.push
    (w.env.scopes.getD (Env.top ⟨w.env.scopes, own ++ below⟩) []), own ++ below⟩ _ _) = _
  rw [htop]
  rfl

private theorem searches_within {push : Env → Env}
    (hpush : ∀ e : Env, ∃ scopes id, ∀ inner, push ⟨e.scopes, inner⟩ = ⟨scopes, id :: inner⟩)
    {act : Searching Flow} {plain : Eval Flow} (hact : Searches act plain) :
    Searches (Searching.within push act) (Eval.within push plain) := by
  intro w found
  obtain ⟨scopes, i, hscopes⟩ := hpush w.env
  let opened (inner : List ScopeId) : World := ⟨⟨scopes, i :: inner⟩, w.printed, w.trace⟩
  obtain ⟨new, hsame, hstack, hwithout⟩ := hact (opened w.env.inner) found
  have hopen (inner : List ScopeId) :
      (⟨push (w.on inner).env, w.printed, w.trace⟩ : World) = opened inner :=
    congrArg (World.mk · w.printed w.trace) (hscopes inner)
  have hplain : Eval.within push plain w = endOn w.env.inner (plain (opened w.env.inner)) :=
    Callers.within_eq_endOn (hopen w.env.inner) hstack
  refine ⟨new, ?_, ?_, fun id own below hinner hid => ?_⟩
  · have hbody : (do Searching.ofEval (Eval.enter push); act : Searching Flow) ⟨w, found⟩ =
        act ⟨opened w.env.inner, found⟩ :=
      congrArg (fun w' => act ⟨w', found⟩) (hopen w.env.inner)
    rw [hplain, Searching.within, bracket, hbody, hsame]
    cases hres : plain (opened w.env.inner) with
    | ok flow w₁ =>
      rw [hres] at hstack
      obtain ⟨⟨scopes₁, inner₁⟩, printed, trace⟩ := w₁
      obtain rfl : inner₁ = i :: w.env.inner := hstack
      rfl
    | error stop w₁ =>
      rw [hres] at hstack
      obtain ⟨⟨scopes₁, inner₁⟩, printed, trace⟩ := w₁
      obtain rfl : inner₁ = i :: w.env.inner := hstack
      rfl
  · rw [hplain, endState_endOn]
    rfl
  · have hbody : plain (opened (own ++ below)) =
        endOn (i :: (own ++ below)) (plain (opened w.env.inner)) :=
      hwithout id (i :: own) below (congrArg (i :: ·) hinner) hid
    have hinner' : (endState (plain (opened (own ++ below)))).env.inner = i :: (own ++ below) := by
      rw [hbody, endState_endOn]
      rfl
    rw [Callers.within_eq_endOn (hopen (own ++ below)) hinner', hplain, hbody, endOn_endOn,
      endOn_endOn]

end Rules

/-- Searching goes along with evaluation. -/
def Machine.searching (tracing : Bool) : Simulation (.search tracing) (.eval tracing) where
  rel := Searches
  pure := searches_pure
  bind := searches_bind
  tooDeep := searches_throw _
  exhausted := searches_throw _
  raise := searches_raise
  ask _ := searches_lift
  give := searches_pure
  lookup := searches_lookup
  define := searches_define
  assign := searches_assign
  declare name _ _ := searches_bind searches_capture fun _ => searches_define name _
  block := searches_within fun e => ⟨e.scopes.push [], e.scopes.size, fun _ => rfl⟩
  print := searches_print
  note := searches_note tracing

private theorem Machine.scoped_searching (tracing : Bool) : (searching tracing).Scoped where
  parameters := searches_within fun e => ⟨e.scopes.push [], e.scopes.size, fun _ => rfl⟩
  captured _ closure := searches_within fun e => ⟨e.scopes, closure, fun _ => rfl⟩

/-- Statements do the same without a scope that does not matter to them. -/
theorem Stmt.execAll_without (limits : Limits) (tracing : Bool) {last : Flow} {ss : List Stmt}
    {w : World} {own below : List ScopeId} {id : ScopeId} (h : w.env.inner = own ++ id :: below)
    (hid : id ∉ found limits tracing last ss w) :
    execAll (limits.context tracing) last ss (w.on (own ++ below)) =
      endOn (own ++ below) (execAll (limits.context tracing) last ss w) := by
  have hall := Stmt.allOn_eval tracing (limits.context tracing) last ss
  rw [Context.rounds_ofCalls, ← Machine.call_eval] at hall
  have hcalls : (Machine.searching tracing).Calls (Searching.call limits tracing) _ :=
    (Machine.scoped_searching tracing).calls limits.rounds limits.calls
  have hsearches : Searches _ _ := Machine.Simulation.stmts hcalls limits.rounds last ss
  rw [hall] at hsearches
  obtain ⟨new, hsame, -, hwithout⟩ := hsearches w []
  refine hwithout id own below h ?_
  rw [found, hsame, endState_mapEnd, List.append_nil] at hid
  exact hid

end Lox
