import Lox.Proofs.Completeness
import Lox.Proofs.FreeNames
import Lox.Proofs.Operations
import Lox.Proofs.Record

/-!
# Disciplines

What every event of a run keeps, every evaluation keeps. A `Discipline` states, event by event, an
invariant of runs and two relations between the run before and the run after: `outer` for what an
expression or a block may do, `inner` for what a statement may do in the scope that it stands in.
The theorems say that evaluation obeys a discipline, whatever it evaluates and however it ends, and
from where its stops arise. Where a discipline is about complete programs, it is obeyed by complete
programs. The induction over the syntax is made here once.
-/

namespace Lox

/-- The stop that a fault leads to. -/
def Stop.ofFault (f : Fault) : Stop := if f.isWritable then .fault f else .unwritable

/-- Whether a program that is read from source text can stop like this. -/
def Stop.Regular : Stop → Prop
  | fault f => f.Regular
  | unwritable | tooDeep | exhausted => True

/-- The stop that a regular fault leads to is regular. -/
theorem Stop.regular_ofFault {f : Fault} (h : f.Regular) : (ofFault f).Regular := by
  unfold ofFault
  split
  · exact h
  · trivial

/-- The ways in which a run can stop before its end, where the values that it handles are all
`known`, and expressions are missing only if `holes` says so. -/
inductive Stop.Arises (holes : Prop) (known : Value → Prop) : Stop → Prop
  | undefined (x : String) : Arises holes known (ofFault (.undefinedVariable x))
  | truth {v : Value} {f : Fault} (hv : known v) (h : v.truth = .error f) :
      Arises holes known (ofFault f)
  | callee {v : Value} {f : Fault} (hv : known v) (h : v.function = .error f) :
      Arises holes known (ofFault f)
  | unary {op : UnaryOp} {v : Value} {f : Fault} (hv : known v) (h : v.unary op = .error f) :
      Arises holes known (ofFault f)
  | binary {op : BinaryOp} {a b : Value} {f : Fault} (ha : known a) (hb : known b)
      (h : Value.binary op a b = .error f) : Arises holes known (ofFault f)
  | builtin {fn : Builtin} {args : List Value} {f : Fault} (hargs : ∀ v ∈ args, known v)
      (hlen : args.length = fn.params.length) (h : fn.apply args = .error f) :
      Arises holes known (ofFault f)
  | arity (expected actual : Nat) : Arises holes known (ofFault (.wrongArity expected actual))
  | unsupported (what : Unsupported) : Arises holes known (ofFault (.unsupportedOperation what))
  | hole (h : holes) : Arises holes known (ofFault .expectedValue)
  | unwritable : Arises holes known .unwritable
  | tooDeep : Arises holes known .tooDeep
  | exhausted : Arises holes known .exhausted

/-- A run stops regularly, or because an expression is missing. -/
theorem Stop.Arises.regular {holes : Prop} {known : Value → Prop} {s : Stop}
    (h : s.Arises holes known) : s.Regular ∨ holes ∧ s = .fault .expectedValue := by
  cases h with
  | truth _ h => exact .inl (regular_ofFault (Value.regular_truth h))
  | callee _ h => exact .inl (regular_ofFault (Value.regular_function h))
  | unary _ h => exact .inl (regular_ofFault (Value.regular_unary h))
  | binary _ _ h => exact .inl (regular_ofFault (Value.regular_binary h))
  | builtin _ _ h => exact .inl (regular_ofFault (Builtin.regular_apply h))
  | undefined | arity | unsupported => exact .inl (regular_ofFault trivial)
  | hole h => exact .inr ⟨h, rfl⟩
  | unwritable | tooDeep | exhausted => exact .inl trivial

namespace Run

/-- The environment of a run. -/
def env (r : Run) : Env := r.world.env

/-- The run after an event that leads to the environment `e`. -/
def step (r : Run) (event : Event) (e : Env) : Run :=
  ⟨⟨e, r.world.printed, r.world.trace⟩, ⟨event, e⟩ :: r.past⟩

/-- The environment after an event is the one that it leads to. -/
@[simp] theorem env_step (r : Run) (event : Event) (e : Env) : (r.step event e).env = e := rfl

/-- An event becomes the latest moment of the history. -/
@[simp] theorem past_step (r : Run) (event : Event) (e : Env) :
    (r.step event e).past = ⟨event, e⟩ :: r.past := rfl

end Run

/-- The run after parameters were bound to arguments, one after the other. -/
def Run.bindAll : List String → List Value → Run → Run
  | x :: xs, v :: vs, r => bindAll xs vs (r.step (.bound x v) (r.env.define x v))
  | _, _, r => r

/-- Binding parameters does nothing else. -/
theorem Machine.defineAll_record (tracing : Bool) (xs : List String) (vs : List Value) (r : Run) :
    (record tracing).defineAll xs vs r = .ok () (r.bindAll xs vs) := by
  induction xs generalizing vs r with
  | nil => rfl
  | cons x xs ih =>
    cases vs with
    | nil => rfl
    | cons v vs => exact ih vs (r.step (.bound x v) (r.env.define x v))

/-- What is run between the opening of a layer and its closing, at the runs `r` and `s`: in a layer
for parameters, the parameters of the function that is being called are bound, and then its body
is run. -/
def Layer.Filled (outer : Run → Run → Prop) (r s : Run) : Layer → Prop
  | parameters id => ∃ f c args before, r.past = ⟨.opened (.call f c), r.env⟩ :: before ∧
      outer ((r.step (.opened (.parameters id)) r.env.push).bindAll f.params args) s
  | block _ | call _ _ => True

/-- The same may lead further. -/
theorem Layer.Filled.imp {outer outer' : Run → Run → Prop} {r s : Run} {l : Layer}
    (h : l.Filled outer r s) (himp : ∀ {r s}, outer r s → outer' r s) : l.Filled outer' r s := by
  cases l with
  | block id | call f c => trivial
  | parameters id =>
    obtain ⟨f, c, args, before, hcall, hbody⟩ := h
    exact ⟨f, c, args, before, hcall, himp hbody⟩

/-- An invariant of runs and what expressions and statements may do to a run, as laws on each event
that can happen. -/
structure Discipline where
  /-- What holds at every moment of a run. -/
  holds : Run → Prop
  /-- What an expression or a block may lead to. -/
  outer : Run → Run → Prop
  /-- What a statement may lead to, before its block ends. -/
  inner : Run → Run → Prop
  /-- What holds of the values that a run handles. -/
  known : Run → Value → Prop
  /-- Whether expressions may be missing in a program and in the functions that it handles. -/
  holes : Prop
  outer_refl (r : Run) : outer r r
  outer_trans {r s t : Run} : outer r s → outer s t → outer r t
  inner_of_outer {r s : Run} : outer r s → inner r s
  inner_trans {r s t : Run} : inner r s → inner s t → inner r t
  stack {r s : Run} : inner r s → s.env.inner = r.env.inner
  known_mono {r s : Run} {v : Value} : inner r s → known r v → known s v
  known_step {r : Run} {v : Value} (event : Event) (e : Env) : known r v →
    known (r.step event e) v
  known_atom (r : Run) {v : Value} : v.isAtom = true → known r v
  known_builtin (r : Run) (fn : Builtin) : known r (.func (.builtin fn))
  known_get {r : Run} {x : String} {v : Value} : holds r → r.env.get? x = some v → known r v
  known_complete {r : Run} {f : Function} : known r (.func f) → holes ∨ f.Complete
  /-- What is printed or noted does not matter. -/
  shown {r s : Run} : holds r → s.env = r.env → s.past = r.past → holds s ∧ outer r s
  bound {r : Run} {x : String} {v : Value} : holds r → known r v →
    holds (r.step (.bound x v) (r.env.define x v)) ∧
      inner r (r.step (.bound x v) (r.env.define x v))
  assigned {r : Run} {x : String} {v : Value} {id : ScopeId} : holds r → known r v →
    r.env.owner? x = some id →
    holds (r.step (.assigned x v) (r.env.putIn id x v)) ∧
      outer r (r.step (.assigned x v) (r.env.putIn id x v))
  declared {r : Run} {f : Function} : holds r → holes ∨ f.Complete →
    f.closure? = some r.env.snapshot.1 →
    holds (r.step (.declared f) r.env.snapshot.2) ∧
      outer r (r.step (.declared f) r.env.snapshot.2) ∧
      known (r.step (.declared f) r.env.snapshot.2) (.func f)
  /-- A block, or the parameters of a call, have a new scope. -/
  opened {r : Run} {l : Layer} : holds r → l.made? = some r.env.scopes.size →
    holds (r.step (.opened l) r.env.push)
  closed {r s : Run} {l : Layer} : holds r → l.made? = some r.env.scopes.size →
    l.Filled outer r s → inner (r.step (.opened l) r.env.push) s → holds s →
    holds (s.step (.closed l) ⟨s.env.scopes, r.env.inner⟩) ∧
      outer r (s.step (.closed l) ⟨s.env.scopes, r.env.inner⟩)
  /-- A call lays the scope of the captured variables on the stack. -/
  begun {r : Run} {f : Function} {c : ScopeId} : holds r → f.closure? = some c →
    known r (.func f) → holds (r.step (.opened (.call f c)) (r.env.pushShared c))
  ended {r s : Run} {f : Function} {c : ScopeId} : holds r → f.closure? = some c →
    known r (.func f) → outer (r.step (.opened (.call f c)) (r.env.pushShared c)) s → holds s →
    holds (s.step (.closed (.call f c)) ⟨s.env.scopes, r.env.inner⟩) ∧
      outer r (s.step (.closed (.call f c)) ⟨s.env.scopes, r.env.inner⟩)

namespace Discipline

variable (D : Discipline)

/-- A computation that was begun at `r` ends as the discipline asks: what it may do is `rel`, its
value is as `post` says, and if it stops, that arises from what was known at some moment. -/
def Ends {α : Type} (rel : Run → Run → Prop) (post : α → Run → Prop) (r : Run) :
    EStateM.Result Stop Run α → Prop
  | .ok a s => D.holds s ∧ rel r s ∧ post a s
  | .error stop s => D.holds s ∧ rel r s ∧ ∃ t, D.holds t ∧ stop.Arises D.holes (D.known t)

/-- All values in a list are known. -/
def KnownAll (vs : List Value) (r : Run) : Prop := ∀ v ∈ vs, D.known r v

/-- The value that a statement ends with, if any, is known. -/
def KnownFlow : Flow → Run → Prop
  | .next, _ => True
  | .value v, r | .returned v, r => D.known r v

/-- Function bodies obey the discipline. -/
def Enters (enter : Block → Recorded Flow) : Prop :=
  ∀ (body : Block) (r : Run), D.holes ∨ Stmt.AllComplete body → D.holds r →
    D.Ends D.outer D.KnownFlow r (enter body r)

/-- Calls of known functions obey the discipline. -/
def Calls (call : Calling Recorded) : Prop :=
  ∀ {f : Function} {args : List Value} {r : Run}, D.holds r → D.known r (.func f) →
    D.KnownAll args r → D.Ends D.outer (fun v s => D.known s v) r (call f args r)

variable {D}

section Ends

variable {α β : Type} {rel : Run → Run → Prop} {P : α → Run → Prop} {Q : β → Run → Prop} {r : Run}

private theorem ends_pure {a : α} (hr : D.holds r) (hrel : rel r r) (h : P a r) :
    D.Ends rel P r ((pure a : Recorded α) r) := ⟨hr, hrel, h⟩

private theorem ends_throw {stop : Stop} (hr : D.holds r) (hrel : rel r r)
    (h : stop.Arises D.holes (D.known r)) : D.Ends rel P r ((throw stop : Recorded α) r) :=
  ⟨hr, hrel, r, hr, h⟩

private theorem ends_raise {f : Fault} (hr : D.holds r) (hrel : rel r r)
    (h : (Stop.ofFault f).Arises D.holes (D.known r)) :
    D.Ends rel P r (Recorded.ofEval (Eval.raise f) r : EStateM.Result Stop Run α) :=
  ends_throw hr hrel h

private theorem ends_bind {act : Recorded α} {next : α → Recorded β}
    (htrans : ∀ {r s t}, rel r s → rel s t → rel r t) (h : D.Ends rel P r (act r))
    (hnext : ∀ a s, D.holds s → rel r s → P a s → D.Ends rel Q s (next a s)) :
    D.Ends rel Q r ((act >>= next) r) := by
  simp only [bind, EStateM.bind]
  cases hact : act r with
  | error stop s => simpa only [hact, Ends] using h
  | ok a s =>
    rw [hact] at h
    obtain ⟨hs, hrs, ha⟩ := h
    have hn := hnext a s hs hrs ha
    simp only
    cases hres : next a s with
    | ok b t =>
      rw [hres] at hn
      exact ⟨hn.1, htrans hrs hn.2.1, hn.2.2⟩
    | error stop t =>
      rw [hres] at hn
      exact ⟨hn.1, htrans hrs hn.2.1, hn.2.2⟩

private theorem ends_inner {res : EStateM.Result Stop Run α} (h : D.Ends D.outer P r res) :
    D.Ends D.inner P r res := by
  cases res with
  | ok a s => exact ⟨h.1, D.inner_of_outer h.2.1, h.2.2⟩
  | error stop s => exact ⟨h.1, D.inner_of_outer h.2.1, h.2.2⟩

end Ends

/-! ### The events -/

section Events

variable {r : Run}

private theorem knownFlow_mono {flow : Flow} {r s : Run} (h : ∀ v, D.known r v → D.known s v)
    (hf : D.KnownFlow flow r) : D.KnownFlow flow s := by
  cases flow with
  | next => trivial
  | value v => exact h v hf
  | returned v => exact h v hf

private theorem known_callValue {flow : Flow} (hf : D.KnownFlow flow r) :
    D.known r flow.callValue := by
  cases flow with
  | next => exact D.known_atom r rfl
  | value v => exact hf
  | returned v => exact hf

private theorem ends_lookup (x : String) (hr : D.holds r) :
    D.Ends D.outer (fun v s => D.known s v) r (Recorded.ofEval (Eval.lookup x) r) := by
  simp only [Recorded.ofEval, Eval.lookup]
  cases hx : r.world.env.get? x with
  | none => exact ends_raise hr (D.outer_refl r) (.undefined x)
  | some v => exact ⟨hr, D.outer_refl r, D.known_get hr hx⟩

private theorem ends_shown {act : Eval Unit} (hr : D.holds r)
    (h : ∀ w, (∃ w', act w = .ok () w' ∧ w'.env = w.env) ∨
      ∃ stop, act w = .error stop w ∧ ∀ holes known, stop.Arises holes known) :
    D.Ends D.outer (fun _ _ => True) r (Recorded.ofEval act r) := by
  simp only [Recorded.ofEval]
  rcases h r.world with ⟨w, hw, henv⟩ | ⟨stop, hw, hstop⟩
  · rw [hw]
    obtain ⟨hs, hrel⟩ := D.shown (s := ⟨w, r.past⟩) hr henv rfl
    exact ⟨hs, hrel, trivial⟩
  · rw [hw]
    exact ⟨hr, D.outer_refl r, r, hr, hstop _ _⟩

private theorem ends_print (v : Value) (hr : D.holds r) :
    D.Ends D.outer (fun _ _ => True) r (Recorded.ofEval (Eval.print v) r) := by
  refine ends_shown hr fun w => ?_
  unfold Eval.print
  cases v.text? with
  | some text => exact .inl ⟨_, rfl, rfl⟩
  | none => exact .inr ⟨_, rfl, fun _ _ => .unwritable⟩

private theorem ends_note (tracing : Bool) (f : Function) (args : List Value) (hr : D.holds r) :
    D.Ends D.outer (fun _ _ => True) r (Recorded.ofEval (Eval.noteWhere tracing f args) r) := by
  refine ends_shown hr fun w => ?_
  unfold Eval.noteWhere Eval.noteCall
  split
  · cases Eval.texts args with
    | some ss => exact .inl ⟨_, rfl, rfl⟩
    | none => exact .inr ⟨_, rfl, fun _ _ => .unwritable⟩
  · exact .inl ⟨w, rfl, rfl⟩

private theorem ends_define (x : String) {v : Value} (hr : D.holds r) (hv : D.known r v) :
    D.Ends D.inner (fun _ _ => True) r (Recorded.define x v r) := by
  obtain ⟨hs, hrel⟩ := D.bound (x := x) hr hv
  exact ⟨hs, hrel, trivial⟩

private theorem ends_assign (x : String) {v : Value} (hr : D.holds r) (hv : D.known r v) :
    D.Ends D.outer (fun _ _ => True) r (Recorded.assign x v r) := by
  simp only [Recorded.assign, Recorded.ofEval, Eval.assign, bind, EStateM.bind]
  cases hx : r.world.env.owner? x with
  | none => exact ends_raise hr (D.outer_refl r) (.undefined x)
  | some id =>
    obtain ⟨hs, hrel⟩ := D.assigned hr hv hx
    exact ⟨hs, hrel, trivial⟩

/-- Parameters can be bound to values that are known. -/
theorem bindAll (xs : List String) {vs : List Value} {r : Run} (hr : D.holds r)
    (hvs : D.KnownAll vs r) : D.holds (r.bindAll xs vs) ∧ D.inner r (r.bindAll xs vs) := by
  induction xs generalizing vs r with
  | nil => exact ⟨hr, D.inner_of_outer (D.outer_refl r)⟩
  | cons x xs ih =>
    cases vs with
    | nil => exact ⟨hr, D.inner_of_outer (D.outer_refl r)⟩
    | cons v vs =>
      obtain ⟨hv, hvs⟩ := List.forall_mem_cons.1 hvs
      obtain ⟨hs, hrs⟩ := D.bound (x := x) hr hv
      obtain ⟨ht, hst⟩ := ih hs fun u hu => D.known_mono hrs (hvs u hu)
      exact ⟨ht, D.inner_trans hrs hst⟩

private theorem ends_declare (name : String) (params : List String) {body : Block}
    (hbody : D.holes ∨ Stmt.AllComplete body) (hr : D.holds r) :
    D.Ends D.inner (fun _ _ => True) r (Recorded.declare name params body r) := by
  obtain ⟨hs, hrel, hknown⟩ :=
    D.declared (f := .user name params body r.env.snapshot.1) hr hbody rfl
  obtain ⟨ht, hrel'⟩ := D.bound (x := name) hs hknown
  exact ⟨ht, D.inner_trans (D.inner_of_outer hrel) hrel', trivial⟩

private theorem leave_eq {s : Run} {l : Layer} {id : ScopeId} {inner : List ScopeId}
    (h : s.env.inner = id :: inner) :
    Recorded.leave l s = .ok () (s.step (.closed l) ⟨s.env.scopes, inner⟩) := by
  obtain ⟨⟨⟨scopes, ids⟩, printed, trace⟩, past⟩ := s
  simp only [Run.env] at h
  subst h
  rfl

private theorem ends_within {α : Type} {layer : Env → Layer} {l : Layer} {id : ScopeId}
    {rel : Run → Run → Prop} {act : Recorded α} {P : α → Run → Prop} (hl : layer r.env = l)
    (hpush : (l.push r.env).inner = id :: r.env.inner)
    (hP : ∀ {a s e}, P a s → P a (s.step (.closed l) e))
    (hstack : ∀ {s}, rel (r.step (.opened l) (l.push r.env)) s →
      s.env.inner = (l.push r.env).inner)
    (hact : D.Ends rel P (r.step (.opened l) (l.push r.env))
      (act (r.step (.opened l) (l.push r.env))))
    (hclose : ∀ s, rel (r.step (.opened l) (l.push r.env)) s → D.holds s →
      D.holds (s.step (.closed l) ⟨s.env.scopes, r.env.inner⟩) ∧
        D.outer r (s.step (.closed l) ⟨s.env.scopes, r.env.inner⟩)) :
    D.Ends D.outer P r (Recorded.within layer act r) := by
  have henter : (do Recorded.enter (layer r.world.env); act : Recorded α) r =
      act (r.step (.opened l) (l.push r.env)) := by
    rw [← hl]
    rfl
  simp only [Recorded.within, bracket]
  rw [henter, show layer r.world.env = l from hl]
  cases hres : act (r.step (.opened l) (l.push r.env)) with
  | ok a s =>
    rw [hres] at hact
    obtain ⟨hs, hrel, ha⟩ := hact
    simp only [bind, EStateM.bind, leave_eq ((hstack hrel).trans hpush)]
    obtain ⟨ht, hout⟩ := hclose s hrel hs
    exact ⟨ht, hout, hP ha⟩
  | error stop s =>
    rw [hres] at hact
    obtain ⟨hs, hrel, harises⟩ := hact
    simp only [bind, EStateM.bind, leave_eq ((hstack hrel).trans hpush)]
    obtain ⟨ht, hout⟩ := hclose s hrel hs
    exact ⟨ht, hout, harises⟩

private theorem knownFlow_closed {flow : Flow} {s : Run} {l : Layer} {e : Env}
    (h : D.KnownFlow flow s) : D.KnownFlow flow (s.step (.closed l) e) :=
  knownFlow_mono (fun _ => D.known_step _ _) h

private theorem ends_block {act : Recorded Flow} (hr : D.holds r)
    (hact : ∀ s, D.holds s → D.Ends D.inner D.KnownFlow s (act s)) :
    D.Ends D.outer D.KnownFlow r (Recorded.within Layer.forBlock act r) := by
  have hopen : D.holds (r.step (.opened (.forBlock r.env)) r.env.push) := D.opened hr rfl
  exact ends_within rfl rfl knownFlow_closed D.stack (hact _ hopen) fun s =>
    D.closed hr rfl trivial

private theorem ends_called {f : Function} {c : ScopeId} {act : Recorded Flow} (hr : D.holds r)
    (hc : f.closure? = some c) (hf : D.known r (.func f))
    (hact : D.Ends D.outer D.KnownFlow (r.step (.opened (.call f c)) (r.env.pushShared c))
      (act (r.step (.opened (.call f c)) (r.env.pushShared c)))) :
    D.Ends D.outer D.KnownFlow r (Recorded.within (fun _ => .call f c) act r) :=
  ends_within rfl rfl knownFlow_closed (fun h => D.stack (D.inner_of_outer h)) hact
    fun _ => D.ended hr hc hf

private theorem ends_passed (tracing : Bool) {f : Function} {c : ScopeId} {args : List Value}
    {before : History} {act : Recorded Flow} (hr : D.holds r)
    (hcall : r.past = ⟨.opened (.call f c), r.env⟩ :: before)
    (hargs : D.KnownAll args (r.step (.opened (.forParameters r.env)) r.env.push))
    (hact : ∀ s, D.holds s → D.Ends D.outer D.KnownFlow s (act s)) :
    D.Ends D.outer D.KnownFlow r (Recorded.within Layer.forParameters
      (do (Machine.record tracing).defineAll f.params args; act) r) := by
  let opened : Run := r.step (.opened (.forParameters r.env)) r.env.push
  have hopen : D.holds opened := D.opened hr rfl
  obtain ⟨ht, hinner⟩ := bindAll f.params hopen hargs
  have hrun : (do (Machine.record tracing).defineAll f.params args; act : Recorded Flow) opened =
      act (opened.bindAll f.params args) :=
    bind_of_ok (Machine.defineAll_record tracing f.params args opened) _
  let rel (_ s : Run) : Prop := D.outer (opened.bindAll f.params args) s
  have hinner' {s : Run} (h : rel opened s) : D.inner opened s :=
    D.inner_trans hinner (D.inner_of_outer h)
  have hbody : D.Ends rel D.KnownFlow opened
      ((do (Machine.record tracing).defineAll f.params args; act : Recorded Flow) opened) := by
    rw [hrun]
    exact hact _ ht
  refine ends_within rfl rfl knownFlow_closed (fun h => D.stack (hinner' h)) hbody fun s h hs => ?_
  exact D.closed hr rfl ⟨f, c, args, before, hcall, h⟩ (hinner' h) hs

private theorem ends_lift {α : Type} {P : α → Run → Prop} {result : Except Fault α}
    (hr : D.holds r) (hok : ∀ a, result = .ok a → P a r)
    (herror : ∀ f, result = .error f → (Stop.ofFault f).Arises D.holes (D.known r)) :
    D.Ends D.outer P r (Recorded.lift result r) := by
  cases result with
  | ok a => exact ⟨hr, D.outer_refl r, hok a rfl⟩
  | error f => exact ends_raise hr (D.outer_refl r) (herror f rfl)

private theorem ends_atom {result : Except Fault Value} (hr : D.holds r)
    (hok : ∀ v, result = .ok v → v.isAtom = true)
    (herror : ∀ f, result = .error f → (Stop.ofFault f).Arises D.holes (D.known r)) :
    D.Ends D.outer (fun v s => D.known s v) r
      ((Recorded.lift result >>= pure) r) :=
  ends_bind D.outer_trans (ends_lift hr (fun v hv => D.known_atom r (hok v hv)) herror)
    fun _ s hs _ hv => ends_pure hs (D.outer_refl s) hv

private theorem ends_truth {v : Value} (hr : D.holds r) (hv : D.known r v) :
    D.Ends D.outer (fun _ _ => True) r (Recorded.lift v.truth r) :=
  ends_lift hr (fun _ _ => trivial) fun _ h => .truth hv h

private theorem ends_function {v : Value} (hr : D.holds r) (hv : D.known r v) :
    D.Ends D.outer (fun f s => D.known s (.func f)) r (Recorded.lift v.function r) := by
  refine ends_lift hr (fun f h => ?_) fun _ h => .callee hv h
  cases v <;> simp only [Value.function, Except.ok.injEq, reduceCtorEq] at h
  exact h ▸ hv

variable {tracing : Bool} {enter : Block → Recorded Flow}

private theorem ends_invoke (henter : D.Enters enter) {f : Function} {args : List Value}
    (hr : D.holds r) (hf : D.known r (.func f)) (hargs : D.KnownAll args r)
    (hlen : args.length = f.arity) :
    D.Ends D.outer (fun v s => D.known s v) r ((Machine.record tracing).invoke enter f args r) := by
  cases f with
  | builtin fn =>
    exact ends_atom hr (fun _ => Builtin.isAtom_apply) fun _ h => .builtin hargs hlen h
  | user name params body closure =>
    have hbegun := D.begun hr rfl hf
    have hpassed := ends_passed tracing hbegun rfl
      (fun v hv => D.known_step _ _ (D.known_step _ _ (hargs v hv)))
      fun s hs => henter body s (D.known_complete hf) hs
    exact ends_bind D.outer_trans (ends_called hr rfl hf hpassed) fun _ s hs _ hflow =>
      ends_pure hs (D.outer_refl s) (known_callValue hflow)

private theorem calls_calling (henter : D.Enters enter) :
    D.Calls ((Machine.record tracing).calling ((Machine.record tracing).invoke enter)) := by
  intro f args r hr hf hargs
  refine ends_bind D.outer_trans (ends_note tracing f args hr) fun _ s hs hrs _ => ?_
  have hf' := D.known_mono (D.inner_of_outer hrs) hf
  have hargs' : D.KnownAll args s := fun v hv => D.known_mono (D.inner_of_outer hrs) (hargs v hv)
  split
  · next hlen => exact ends_invoke henter hs hf' hargs' hlen
  · exact ends_raise hs (D.outer_refl s) (.arity _ _)

end Events

/-! ### Expressions -/

section Syntax

variable {tracing : Bool} {call : Calling Recorded} {rounds : Nat}

mutual

/-- The value of an expression is known. -/
theorem ends_expr (hcall : D.Calls call) :
    (e : Expr) → {r : Run} → D.holes ∨ e.Complete → D.holds r →
      D.Ends D.outer (fun v s => D.known s v) r (e.on (.record tracing) call r)
  | .literal l, r, _, hr => ends_pure hr (D.outer_refl r) (D.known_atom r l.isAtom_value)
  | .name x, _, _, hr =>
    ends_bind D.outer_trans (ends_lookup x hr) fun _ s hs _ hv => ends_pure hs (D.outer_refl s) hv
  | .unary op e, _, he, hr =>
    ends_bind D.outer_trans (ends_expr hcall e he hr) fun _ _ hs _ hv =>
      ends_atom hs (fun _ => Value.isAtom_unary) fun _ h => .unary hv h
  | .binary op a b, r, he, hr => by
    have ha := ends_expr hcall a (he.imp_right And.left) hr
    have hb {s : Run} (hs : D.holds s) := ends_expr hcall b (he.imp_right And.right) hs
    have hatom {s : Run} (hs : D.holds s) (holds : Bool) :
        D.Ends D.outer (fun v s => D.known s v) s ((pure (Value.bool holds) : Recorded Value) s) :=
      ends_pure hs (D.outer_refl s) (D.known_atom s rfl)
    -- the right operand of a connective, of which only the truth counts
    have htest {s : Run} (hs : D.holds s) : D.Ends D.outer (fun v s => D.known s v) s
        ((do
          let v ← b.on (.record tracing) call
          let holds ← Recorded.lift v.truth
          pure (Value.bool holds)) s) :=
      ends_bind D.outer_trans (hb hs) fun v t ht _ hv =>
        ends_bind D.outer_trans (ends_truth ht hv) fun holds _ hu _ _ => hatom hu holds
    cases op with
    | and =>
      refine ends_bind D.outer_trans ha fun lhs s hs _ hlhs =>
        ends_bind D.outer_trans (ends_truth hs hlhs) fun holds t ht _ _ => ?_
      cases holds with
      | false => exact hatom ht false
      | true => exact htest ht
    | or =>
      refine ends_bind D.outer_trans ha fun lhs s hs _ hlhs =>
        ends_bind D.outer_trans (ends_truth hs hlhs) fun holds t ht _ _ => ?_
      cases holds with
      | false => exact htest ht
      | true => exact hatom ht true
    | _ =>
      exact ends_bind D.outer_trans ha fun lhs s hs _ hlhs =>
        ends_bind D.outer_trans (hb hs) fun rhs t ht hst hrhs =>
          ends_atom ht (fun _ => Value.isAtom_binary) fun _ h =>
            .binary (D.known_mono (D.inner_of_outer hst) hlhs) hrhs h
  | .access _ _, r, _, hr => ends_raise hr (D.outer_refl r) (.unsupported _)
  | .assign target e, r, he, hr => by
    refine ends_bind D.outer_trans (ends_expr hcall e (he.imp_right And.right) hr)
      fun v s hs _ hv => ?_
    cases target with
    | name x =>
      exact ends_bind D.outer_trans (ends_assign x hs hv) fun _ t ht hst _ =>
        ends_pure ht (D.outer_refl t) (D.known_mono (D.inner_of_outer hst) hv)
    | _ => exact ends_raise hs (D.outer_refl s) (.unsupported _)
  | .call callee args, _, he, hr =>
    ends_bind D.outer_trans (ends_lookup callee hr) fun _ _ hs _ hv =>
      ends_bind D.outer_trans (ends_function hs hv) fun _ _ ht _ hf =>
        ends_bind D.outer_trans (ends_exprs hcall args he ht) fun _ _ hu htu hvs =>
          hcall hu (D.known_mono (D.inner_of_outer htu) hf) hvs
  | .hole, r, he, hr => ends_raise hr (D.outer_refl r) (.hole (he.resolve_right id))
termination_by structural e => e

/-- The values of expressions are known. -/
theorem ends_exprs (hcall : D.Calls call) :
    (es : List Expr) → {r : Run} → D.holes ∨ Expr.AllComplete es → D.holds r →
      D.Ends D.outer D.KnownAll r (Expr.allOn (.record tracing) call es r)
  | [], r, _, hr => ends_pure hr (D.outer_refl r) fun _ h => nomatch h
  | e :: es, _, he, hr =>
    ends_bind D.outer_trans (ends_expr hcall e (he.imp_right And.left) hr) fun _ _ hs _ hv =>
      ends_bind D.outer_trans (ends_exprs hcall es (he.imp_right And.right) hs)
        fun _ t ht hst hvs => ends_pure ht (D.outer_refl t)
          (List.forall_mem_cons.2 ⟨D.known_mono (D.inner_of_outer hst) hv, hvs⟩)
termination_by structural es => es

end

/-! ### Statements -/

private theorem ends_repeatWhile {test : Recorded Bool} {body : Recorded Flow}
    (htest : ∀ r, D.holds r → D.Ends D.outer (fun _ _ => True) r (test r))
    (hbody : ∀ r, D.holds r → D.Ends D.outer D.KnownFlow r (body r)) (rounds : Nat) {last : Flow}
    {r : Run} (hr : D.holds r) (hlast : D.KnownFlow last r) :
    D.Ends D.outer D.KnownFlow r
      ((Machine.record tracing).repeatWhile test body rounds last r) := by
  induction rounds generalizing last r with
  | zero => exact ends_throw hr (D.outer_refl r) .exhausted
  | succ rounds ih =>
    refine ends_bind D.outer_trans (htest r hr) fun holds s hs hrs _ => ?_
    cases holds with
    | false =>
      exact ends_pure hs (D.outer_refl s)
        (knownFlow_mono (fun _ => D.known_mono (D.inner_of_outer hrs)) hlast)
    | true =>
      refine ends_bind D.outer_trans (hbody s hs) fun flow t ht _ hflow => ?_
      cases flow with
      | returned v => exact ends_pure ht (D.outer_refl t) hflow
      | next => exact ih ht trivial
      | value v => exact ih ht hflow

private theorem ends_value (hcall : D.Calls call) {e : Expr} (he : D.holes ∨ e.Complete) {r : Run}
    (hr : D.holds r) {flow : Value → Flow} (hflow : ∀ {v s}, D.known s v → D.KnownFlow (flow v) s) :
    D.Ends D.outer D.KnownFlow r
      ((do let v ← e.on (.record tracing) call; pure (flow v) : Recorded Flow) r) :=
  ends_bind D.outer_trans (ends_expr hcall e he hr) fun _ s hs _ hv =>
    ends_pure hs (D.outer_refl s) (hflow hv)

private theorem ends_printed (hcall : D.Calls call) {e : Expr} (he : D.holes ∨ e.Complete) {r : Run}
    (hr : D.holds r) :
    D.Ends D.outer D.KnownFlow r ((Stmt.print e).on (.record tracing) call rounds r) :=
  ends_bind D.outer_trans (ends_expr hcall e he hr) fun v _ hs _ _ =>
    ends_bind D.outer_trans (ends_print v hs) fun _ t ht _ _ =>
      ends_pure ht (D.outer_refl t) trivial

private theorem ends_branch (hcall : D.Calls call) {cond : Expr} {yes no : Block}
    (h : D.holes ∨ (Stmt.branch cond yes no).Complete) {r : Run} (hr : D.holds r)
    (hyes : ∀ {s}, D.holds s →
      D.Ends D.inner D.KnownFlow s (Stmt.allOn (.record tracing) call rounds .next yes s))
    (hno : ∀ {s}, D.holds s →
      D.Ends D.inner D.KnownFlow s (Stmt.allOn (.record tracing) call rounds .next no s)) :
    D.Ends D.outer D.KnownFlow r
      ((Stmt.branch cond yes no).on (.record tracing) call rounds r) := by
  refine ends_bind D.outer_trans (ends_expr hcall cond (h.imp_right And.left) hr)
    fun v s hs _ hv => ends_bind D.outer_trans (ends_truth hs hv) fun holds t ht _ _ => ?_
  cases holds with
  | false => exact ends_block ht fun _ => hno
  | true => exact ends_block ht fun _ => hyes

private theorem ends_loop (hcall : D.Calls call) {cond : Expr} {body : Block}
    (h : D.holes ∨ (Stmt.loop cond body).Complete) {r : Run} (hr : D.holds r)
    (hbody : ∀ {s}, D.holds s →
      D.Ends D.inner D.KnownFlow s (Stmt.allOn (.record tracing) call rounds .next body s)) :
    D.Ends D.outer D.KnownFlow r ((Stmt.loop cond body).on (.record tracing) call rounds r) := by
  refine ends_repeatWhile (fun s hs => ?_) (fun s hs => ?_) _ hr trivial
  · exact ends_bind D.outer_trans (ends_expr hcall cond (h.imp_right And.left) hs)
      fun v t ht _ hv => ends_truth ht hv
  · exact ends_block hs fun _ => hbody

mutual

/-- A statement obeys the discipline. -/
theorem ends_stmt (hcall : D.Calls call) :
    (s : Stmt) → {r : Run} → D.holes ∨ s.Complete → D.holds r →
      D.Ends D.inner D.KnownFlow r (s.on (.record tracing) call rounds r)
  | .expr _, _, h, hr => ends_inner (ends_value hcall h hr fun hv => hv)
  | .print _, _, h, hr => ends_inner (ends_printed hcall h hr)
  | .block body, _, h, hr =>
    ends_inner (ends_block hr fun _ hs => ends_stmts hcall body .next h hs trivial)
  | .var x none, r, _, hr =>
    ends_bind D.inner_trans (ends_define x hr (D.known_atom r rfl)) fun _ s hs _ _ =>
      ends_pure hs (D.inner_of_outer (D.outer_refl s)) trivial
  | .var x (some e), _, h, hr =>
    ends_bind D.inner_trans (ends_inner (ends_expr hcall e h hr)) fun _ _ hs _ hv =>
      ends_bind D.inner_trans (ends_define x hs hv) fun _ t ht _ _ =>
        ends_pure ht (D.inner_of_outer (D.outer_refl t)) trivial
  | .branch _ yes no, _, h, hr =>
    ends_inner (ends_branch hcall h hr
      (fun hs => ends_stmts hcall yes .next (h.imp_right fun h => h.2.1) hs trivial)
      (fun hs => ends_stmts hcall no .next (h.imp_right fun h => h.2.2) hs trivial))
  | .loop _ body, _, h, hr =>
    ends_inner (ends_loop hcall h hr
      fun hs => ends_stmts hcall body .next (h.imp_right And.right) hs trivial)
  | .func name params _, _, h, hr =>
    ends_bind D.inner_trans (ends_declare name params h hr) fun _ s hs _ _ =>
      ends_pure hs (D.inner_of_outer (D.outer_refl s)) trivial
  | .builtin name fn, r, _, hr =>
    ends_bind D.inner_trans (ends_define name hr (D.known_builtin r fn)) fun _ s hs _ _ =>
      ends_pure hs (D.inner_of_outer (D.outer_refl s)) trivial
  | .ret none, r, _, hr => ends_pure hr (D.inner_of_outer (D.outer_refl r)) (D.known_atom r rfl)
  | .ret (some _), _, h, hr => ends_inner (ends_value hcall h hr fun hv => hv)
termination_by structural s => s

/-- Statements one after the other obey the discipline. -/
theorem ends_stmts (hcall : D.Calls call) :
    (ss : List Stmt) → (last : Flow) → {r : Run} → D.holes ∨ Stmt.AllComplete ss → D.holds r →
      D.KnownFlow last r →
      D.Ends D.inner D.KnownFlow r (Stmt.allOn (.record tracing) call rounds last ss r)
  | [], _, r, _, hr, hlast => ends_pure hr (D.inner_of_outer (D.outer_refl r)) hlast
  | s :: ss, _, _, h, hr, _ => by
    have hss (flow : Flow) {t : Run} := ends_stmts hcall ss flow (r := t) (h.imp_right And.right)
    refine ends_bind D.inner_trans (ends_stmt hcall s (h.imp_right And.left) hr)
      fun flow t ht _ hflow => ?_
    cases flow with
    | returned v => exact ends_pure ht (D.inner_of_outer (D.outer_refl t)) hflow
    | next => exact hss _ ht trivial
    | value v => exact hss _ ht hflow
termination_by structural ss => ss

end

/-- A statement that binds nothing in the scope that it stands in obeys the discipline as a block
does. -/
theorem ends_unbinding (hcall : D.Calls call) {s : Stmt} (hs : s.binds = [])
    (h : D.holes ∨ s.Complete) {r : Run} (hr : D.holds r) :
    D.Ends D.outer D.KnownFlow r (s.on (.record tracing) call rounds r) := by
  cases s with
  | expr e => exact ends_value hcall h hr fun hv => hv
  | print e => exact ends_printed hcall h hr
  | block body => exact ends_block hr fun _ ht => ends_stmts hcall body .next h ht trivial
  | branch cond yes no =>
    refine ends_branch hcall h hr (fun ht => ?_) fun ht => ?_
    · exact ends_stmts hcall yes .next (h.imp_right fun h => h.2.1) ht trivial
    · exact ends_stmts hcall no .next (h.imp_right fun h => h.2.2) ht trivial
  | loop cond body =>
    exact ends_loop hcall h hr fun ht =>
      ends_stmts hcall body .next (h.imp_right And.right) ht trivial
  | ret value =>
    cases value with
    | none => exact ends_pure hr (D.outer_refl r) (D.known_atom r rfl)
    | some e => exact ends_value hcall h hr fun hv => hv
  | var | func | builtin => cases hs

end Syntax

variable (limits : Limits) (tracing : Bool)

private theorem enters_enter (rounds calls : Nat) :
    D.Enters ((Machine.record tracing).enter (Machine.record tracing).invoke rounds calls) := by
  induction calls with
  | zero => exact fun body r _ hr => ends_throw hr (D.outer_refl r) .tooDeep
  | succ calls ih =>
    intro body r hbody hr
    exact ends_block hr fun _ hs => ends_stmts (calls_calling ih) body .next hbody hs trivial

/-- However many calls may be nested, calls obey the discipline. -/
theorem calls_call : D.Calls (Recorded.call limits tracing) := calls_calling (enters_enter _ _ _)

/-- A block obeys the discipline. -/
theorem ends_body {body : Block} (hbody : D.holes ∨ Stmt.AllComplete body) {r : Run}
    (hr : D.holds r) : D.Ends D.outer D.KnownFlow r (body.record limits tracing r) :=
  ends_block hr fun _ hs => ends_stmts (calls_call limits tracing) body .next hbody hs trivial

/-- A program obeys the discipline. -/
theorem ends_program {p : Program} (hp : D.holes ∨ p.Complete) {r : Run} (hr : D.holds r) :
    D.Ends D.inner D.KnownFlow r (p.record limits tracing r) :=
  ends_stmts (calls_call limits tracing) p .next hp hr trivial

end Discipline

end Lox
