import Lox.Proofs.Discipline
import Lox.Proofs.Erasure
import Lox.Proofs.Scopes
import Lox.Proofs.Watching

/-!
# No name escapes as a value

A name could be a value: it is a sort of values, and scopes would store it like any other. But a
program only ever computes with what its names stand for. Whatever units are run, no name is handed
to an operator, tested, called, passed, bound or given as a result, at any moment of the run. So
truth is refused to functions only, and a type is refused only where something that is no function
is called, or where a built-in function is given something that is no number.

The invariant is about the log of a watched run. `Act.Leads` says what each act does to the
environment, and a valid log is a chain of acts on values that are no names; the environments of a
valid log then have no names in them either. Every evaluation adds to a valid log, and without its
log it is evaluation: both are shown together, by the syntax.
-/

namespace Lox

/-- Whether the value is an integer, a double, a string, a truth value, a function or the unit. -/
def Value.Proper (v : Value) : Prop := v.shape ≠ .ident

/-- Whether the value that a statement ends with, if any, is proper. -/
def Flow.Proper : Flow → Prop
  | next => True
  | value v | returned v => v.Proper

namespace Value

/-- Atoms are proper. -/
theorem proper_of_isAtom {v : Value} (h : v.isAtom = true) : v.Proper := by
  cases v with
  | ident x => cases h
  | _ => simp [Proper, shape]

/-- Functions are proper. -/
theorem proper_func (f : Function) : (func f).Proper := by
  simp [Proper, shape]

/-- The unit is proper. -/
theorem proper_unit : unit.Proper := by
  simp [Proper, shape]

/-- Truth is refused to a proper value only if it is a function. -/
theorem Proper.shape_of_truth {v : Value} {f : Fault} (h : v.Proper) (hf : v.truth = .error f) :
    v.shape = .func := (truth_eq_error hf).2.resolve_left h

end Value

/-- The value of a call is proper if its body ends properly. -/
theorem Flow.Proper.callValue {flow : Flow} (h : flow.Proper) : flow.callValue.Proper := by
  cases flow with
  | next => exact Value.proper_unit
  | value v | returned v => exact h

/-! ### Logs -/

/-- What an act does to the environment, and what it takes from there. -/
inductive Act.Leads (before : Env) : Act → Env → Prop
  | operands (vs : List Value) : Leads before (.operands vs) before
  | condition (v : Value) : Leads before (.condition v) before
  | callee {x : String} {v : Value} (h : before.get? x = some v) :
      Leads before (.callee x v) before
  | arguments (f : Function) (args : List Value) : Leads before (.arguments f args) before
  | builtin (fn : Builtin) (args : List Value) : Leads before (.builtin fn args) before
  | outcome (v : Value) : Leads before (.outcome v) before
  | defined (x : String) (v : Value) : Leads before (.stored x v) (before.define x v)
  | assigned {x : String} {id : ScopeId} (h : before.owner? x = some id) (v : Value) :
      Leads before (.stored x v) (before.putIn id x v)
  | copied : Leads before .scopes before.snapshot.2
  | opened : Leads before .scopes before.push
  | called (closure : ScopeId) : Leads before .scopes (before.pushShared closure)
  | closed {id : ScopeId} {e : Env} (h : before.pop? = some (id, e)) : Leads before .scopes e

/-- An act on proper values keeps all values of an environment proper. -/
theorem Act.Leads.all {before e : Env} {act : Act} (h : act.Leads before e)
    (hbefore : before.All Value.Proper) (hvalues : ∀ v ∈ act.values, v.Proper) :
    e.All Value.Proper := by
  cases h with
  | operands | condition | callee | arguments | builtin | outcome => exact hbefore
  | defined x v => exact hbefore.putIn _ _ (hvalues v List.mem_cons_self)
  | assigned _ v => exact hbefore.putIn _ _ (hvalues v List.mem_cons_self)
  | copied => exact hbefore.snapshot
  | opened => exact hbefore.push
  | called closure => exact hbefore
  | closed h =>
    rcases before with ⟨scopes, _ | ⟨id, inner⟩⟩
    · cases h
    · cases h
      exact hbefore

namespace Sighting

/-- The environment after what was seen; every run begins with the initial one. -/
def env : List Sighting → Env
  | [] => Env.initial
  | t :: _ => t.world.env

/-- Each act follows from those before it, and nothing is done with names. -/
inductive Valid : List Sighting → Prop
  | start : Valid []
  | step {past : List Sighting} {act : Act} {w : World} (h : Valid past)
      (hleads : act.Leads (env past) w.env) (hvalues : ∀ v ∈ act.values, v.Proper) :
      Valid (⟨act, w⟩ :: past)

/-- Nothing is done with a name at that moment, and no name is a value in any scope. -/
structure Proper (t : Sighting) : Prop where
  values : ∀ v ∈ t.act.values, v.Proper
  scopes : t.world.env.All Value.Proper

namespace Valid

variable {seen : List Sighting}

/-- All values are proper after a valid log. -/
theorem all (h : Valid seen) : (env seen).All Value.Proper := by
  induction h with
  | start => exact Env.All.initial fun _ => Value.proper_func _
  | step _ hleads hvalues ih => exact hleads.all ih hvalues

/-- A valid log is proper at every moment. -/
theorem proper (h : Valid seen) : ∀ t ∈ seen, t.Proper := by
  induction h with
  | start => exact List.forall_mem_nil _
  | step h hleads hvalues ih =>
    exact List.forall_mem_cons.2 ⟨⟨hvalues, hleads.all h.all hvalues⟩, ih⟩

end Valid

end Sighting

namespace Watch

/-- The log is valid, and the environment is the one that was seen last. -/
structure Sound (s : Watch) : Prop where
  valid : Sighting.Valid s.seen
  current : s.world.env = Sighting.env s.seen

/-- What was last done with values accounts for a stop that refuses truth or a type. -/
def Explains (s : Watch) : Stop → Prop
  | .fault (.unsupportedTruthiness v) =>
      v.shape = .func ∧ ∃ w, s.lastUse? = some ⟨.condition v, w⟩
  | .fault (.typeMismatch v expected) =>
      (expected = Shape.func.name ∧ v.shape ≠ .func ∧
          ∃ x w, s.lastUse? = some ⟨.callee x v, w⟩ ∧ w.env.get? x = some v) ∨
        (expected = "Int | Float" ∧ v.shape ≠ .int ∧ v.shape ≠ .float ∧
          ∃ fn args w, s.lastUse? = some ⟨.builtin fn args, w⟩ ∧ v ∈ args)
  | _ => True

variable {s : Watch}

/-- At first nothing was seen. -/
theorem sound_start : start.Sound := ⟨.start, rfl⟩

/-- All values are proper in a sound watch. -/
theorem Sound.all (h : s.Sound) : s.world.env.All Value.Proper := h.current ▸ h.valid.all

/-- What leaves the environment alone need not be seen. -/
theorem Sound.keep (h : s.Sound) {w : World} (hw : w.env = s.world.env) : Sound ⟨w, s.seen⟩ :=
  ⟨h.valid, hw.trans h.current⟩

/-- One more act on proper values is seen. -/
theorem Sound.see (h : s.Sound) {act : Act} {w : World} (hleads : act.Leads s.world.env w.env)
    (hvalues : ∀ v ∈ act.values, v.Proper) : Sound ⟨w, ⟨act, w⟩ :: s.seen⟩ :=
  ⟨h.valid.step (h.current ▸ hleads) hvalues, rfl⟩

/-- Where a fault is explained, so is the stop that it leads to. -/
theorem Explains.ofFault {f : Fault} (h : s.Explains (.fault f)) : s.Explains (.ofFault f) := by
  unfold Stop.ofFault
  split
  · exact h
  · trivial

/-- The faults of operators refuse neither truth nor a type. -/
theorem explains_ofOperator {f : Fault} (h : f.OfOperator) : s.Explains (.fault f) := by
  cases f with
  | typeMismatch | unsupportedTruthiness => exact h.elim
  | _ => trivial

/-- A change of the scopes does nothing with values. -/
theorem Explains.moved {stop : Stop} (h : s.Explains stop) (w w' : World) :
    Explains ⟨w, ⟨.scopes, w'⟩ :: s.seen⟩ stop := h

end Watch

/-! ### Steps -/

namespace Watched

variable {α β : Type}

/-- A watched step ends in a sound watch, with a result as `P` says or with a stop that the watch
explains. -/
def Ends (P : α → Prop) : EStateM.Result Stop Watch α → Prop
  | .ok a s => s.Sound ∧ P a
  | .error stop s => s.Sound ∧ s.Explains stop

/-- A watched step ends like this from every sound watch, and is the step of evaluation. -/
def Watches (P : α → Prop) (act : Watched α) (plain : Eval α) : Prop :=
  ∀ s, s.Sound → forget (act s) = plain s.world ∧ Ends P (act s)

/-- A step of evaluation that leaves the environment alone, and ends as `P` says or with a stop that
needs no explanation. -/
def Quiet (P : α → Prop) (w : World) : EStateM.Result Stop World α → Prop
  | .ok a w' => w'.env = w.env ∧ P a
  | .error stop w' => w'.env = w.env ∧ ∀ s : Watch, s.Explains stop

/-- A step of evaluation that changes the scopes as an act can, or fails without a change. -/
def Moves (w : World) : EStateM.Result Stop World α → Prop
  | .ok _ w' => Act.scopes.Leads w.env w'.env
  | .error stop w' => w'.env = w.env ∧ ∀ s : Watch, s.Explains stop

section Rules

variable {P : α → Prop} {Q : β → Prop} {tracing : Bool}

private theorem watches_pure {a : α} (h : P a) : Watches P (pure a) (pure a) :=
  fun _ hs => ⟨rfl, hs, h⟩

private theorem watches_throw {stop : Stop} (h : ∀ s : Watch, s.Explains stop) :
    Watches P (throw stop) (throw stop) := fun s hs => ⟨rfl, hs, h s⟩

private theorem watches_bind {act : Watched α} {plain : Eval α} {next : α → Watched β}
    {plainNext : α → Eval β} (h : Watches P act plain)
    (hnext : ∀ a, P a → Watches Q (next a) (plainNext a)) :
    Watches Q (act >>= next) (plain >>= plainNext) := by
  intro s hs
  obtain ⟨hforget, hends⟩ := h s hs
  simp only [bind, EStateM.bind]
  rw [← hforget]
  cases hact : act s with
  | error stop s' =>
    rw [hact] at hends
    exact ⟨rfl, hends⟩
  | ok a s' =>
    rw [hact] at hends
    exact hnext a hends.2 s' hends.1

private theorem watches_ofEval {act : Eval α}
    (h : ∀ w, w.env.All Value.Proper → Quiet P w (act w)) : Watches P (ofEval act) act := by
  intro s hs
  have hquiet := h s.world hs.all
  simp only [ofEval]
  cases hact : act s.world with
  | error stop w =>
    rw [hact] at hquiet
    exact ⟨rfl, hs.keep hquiet.1, hquiet.2 _⟩
  | ok a w =>
    rw [hact] at hquiet
    exact ⟨rfl, hs.keep hquiet.1, hquiet.2⟩

private theorem watches_raise {f : Fault} (h : ∀ s : Watch, s.Explains (.fault f)) :
    Watches P (ofEval (Eval.raise f)) (Eval.raise f) :=
  watches_ofEval fun _ _ => ⟨rfl, fun s => (h s).ofFault⟩

private theorem watches_lookup (x : String) :
    Watches Value.Proper (ofEval (Eval.lookup x)) (Eval.lookup x) := by
  refine watches_ofEval fun w hw => ?_
  simp only [Eval.lookup]
  cases hx : w.env.get? x with
  | some v => exact ⟨rfl, hw.of_get? hx⟩
  | none => exact ⟨rfl, fun s => Watch.Explains.ofFault trivial⟩

private theorem watches_print (v : Value) :
    Watches (fun _ => True) (ofEval (Eval.print v)) (Eval.print v) := by
  refine watches_ofEval fun w _ => ?_
  unfold Eval.print
  cases v.text? with
  | some text => exact ⟨rfl, trivial⟩
  | none => exact ⟨rfl, fun _ => trivial⟩

private theorem watches_note (tracing : Bool) (f : Function) (args : List Value) :
    Watches (fun _ => True) (ofEval (Eval.noteWhere tracing f args))
      (Eval.noteWhere tracing f args) := by
  refine watches_ofEval fun w _ => ?_
  unfold Eval.noteWhere Eval.noteCall
  cases tracing with
  | false => exact ⟨rfl, trivial⟩
  | true =>
    cases Eval.texts args with
    | some ss => exact ⟨rfl, trivial⟩
    | none => exact ⟨rfl, fun _ => trivial⟩

private theorem watches_see {seen : Act} {act : Watched α} {plain : Eval α}
    (hleads : ∀ e, seen.Leads e e) (hvalues : ∀ v ∈ seen.values, v.Proper)
    (h : Watches P act plain) : Watches P (do see seen; act) plain :=
  fun s hs => h ⟨s.world, ⟨seen, s.world⟩ :: s.seen⟩ (hs.see (hleads _) hvalues)

private theorem watches_give {v : Value} (hv : v.Proper) : Watches Value.Proper (give v) (pure v) :=
  watches_see (fun _ => .outcome v) (List.forall_mem_singleton.2 hv) (watches_pure hv)

private theorem ends_ask {act : Act} {result : Except Fault α} {s : Watch} (hs : s.Sound)
    (hleads : act.Leads s.world.env s.world.env) (hvalues : ∀ v ∈ act.values, v.Proper)
    (hok : ∀ a, result = .ok a → P a)
    (herror : ∀ f, result = .error f →
      Watch.Explains ⟨s.world, ⟨act, s.world⟩ :: s.seen⟩ (.fault f)) :
    forget (ask act result s) = Eval.lift result s.world ∧ Ends P (ask act result s) := by
  have hsee := hs.see hleads hvalues
  cases result with
  | ok a => exact ⟨rfl, hsee, hok a rfl⟩
  | error f => exact ⟨rfl, hsee, (herror f rfl).ofFault⟩

private theorem watches_truth {v : Value} (hv : v.Proper) :
    Watches (fun _ => True) (ask (.condition v) v.truth) (Eval.lift v.truth) := by
  refine fun s hs => ends_ask hs (.condition v) (List.forall_mem_singleton.2 hv)
    (fun _ _ => trivial) fun f hf => ?_
  obtain ⟨rfl, -⟩ := Value.truth_eq_error hf
  exact ⟨hv.shape_of_truth hf, _, rfl⟩

private theorem watches_unary (op : UnaryOp) {v : Value} (hv : v.Proper) :
    Watches Value.Proper (ask (.operands [v]) (v.unary op)) (Eval.lift (v.unary op)) :=
  fun _ hs => ends_ask hs (.operands _) (List.forall_mem_singleton.2 hv)
    (fun _ hu => Value.proper_of_isAtom (Value.isAtom_unary hu))
    fun _ hf => Watch.explains_ofOperator (Value.ofOperator_unary hf)

private theorem watches_binary (op : BinaryOp) {a b : Value} (ha : a.Proper) (hb : b.Proper) :
    Watches Value.Proper (ask (.operands [a, b]) (Value.binary op a b))
      (Eval.lift (Value.binary op a b)) :=
  fun _ hs => ends_ask hs (.operands _)
    (List.forall_mem_cons.2 ⟨ha, List.forall_mem_singleton.2 hb⟩)
    (fun _ hu => Value.proper_of_isAtom (Value.isAtom_binary hu))
    fun _ hf => Watch.explains_ofOperator (Value.ofOperator_binary hf)

private theorem watches_builtin (fn : Builtin) {args : List Value}
    (hargs : ∀ v ∈ args, v.Proper) :
    Watches Value.Proper (ask (.builtin fn args) (fn.apply args)) (Eval.lift (fn.apply args)) := by
  refine fun s hs => ends_ask hs (.builtin fn args) hargs
    (fun _ hu => Value.proper_of_isAtom (Builtin.isAtom_apply hu)) fun f hf => ?_
  cases Builtin.fails_apply hf with
  | noNumber hv hint hfloat => exact .inr ⟨rfl, hint, hfloat, _, _, _, rfl, hv⟩
  | differ | arity => trivial

private theorem watches_callee (x : String) :
    Watches (fun _ => True) (do let v ← ofEval (Eval.lookup x); ask (.callee x v) v.function)
      (do let v ← Eval.lookup x; Eval.lift v.function) := by
  intro s hs
  simp only [ofEval, Eval.lookup, bind, EStateM.bind]
  cases hx : s.world.env.get? x with
  | none => exact ⟨rfl, hs, Watch.Explains.ofFault trivial⟩
  | some v =>
    refine ends_ask hs (.callee hx) (List.forall_mem_singleton.2 (hs.all.of_get? hx))
      (fun _ _ => trivial) fun f hf => ?_
    obtain ⟨rfl, hfunc⟩ := Value.function_eq_error hf
    exact .inl ⟨rfl, hfunc, _, _, rfl, hx⟩

private theorem watches_define (x : String) {v : Value} (hv : v.Proper) :
    Watches (fun _ => True) (define x v) (Eval.define x v) :=
  fun _ hs => ⟨rfl, hs.see (.defined x v) (List.forall_mem_singleton.2 hv), trivial⟩

private theorem watches_assign (x : String) {v : Value} (hv : v.Proper) :
    Watches (fun _ => True) (assign x v) (Eval.assign x v) := by
  intro s hs
  simp only [assign, ofEval, Eval.assign, bind, EStateM.bind]
  cases hx : s.world.env.owner? x with
  | none => exact ⟨rfl, hs, Watch.Explains.ofFault trivial⟩
  | some id =>
    exact ⟨rfl, hs.see (.assigned hx v) (List.forall_mem_singleton.2 hv), trivial⟩

private theorem watches_defineAll (tracing : Bool) (xs : List String) {vs : List Value}
    (hvs : ∀ v ∈ vs, v.Proper) :
    Watches (fun _ => True) ((Machine.watch tracing).defineAll xs vs)
      ((Machine.eval tracing).defineAll xs vs) := by
  induction xs generalizing vs with
  | nil => exact watches_pure trivial
  | cons x xs ih =>
    cases vs with
    | nil => exact watches_pure trivial
    | cons v vs =>
      obtain ⟨hv, hvs⟩ := List.forall_mem_cons.1 hvs
      exact watches_bind (watches_define x hv) fun _ _ => ih hvs

private theorem watches_moving {act : Eval α} (h : ∀ w, Moves w (act w)) :
    Watches (fun _ => True) (moving act) act := by
  intro s hs
  have hmoves := h s.world
  simp only [moving, ofEval, bind, EStateM.bind]
  cases hact : act s.world with
  | error stop w =>
    rw [hact] at hmoves
    exact ⟨rfl, hs.keep hmoves.1, hmoves.2 _⟩
  | ok a w =>
    rw [hact] at hmoves
    exact ⟨rfl, hs.see hmoves (List.forall_mem_nil _), trivial⟩

private theorem watches_declare (name : String) (params : List String) (body : Block) :
    Watches (fun _ => True) ((Machine.watch tracing).declare name params body)
      ((Machine.eval tracing).declare name params body) := by
  have hcapture : Watches (fun _ => True) (moving Eval.capture) Eval.capture :=
    watches_moving fun _ => .copied
  exact watches_bind hcapture fun _ _ => watches_define name (Value.proper_func _)

private theorem moves_leave (w : World) : Moves w (Eval.leave w) := by
  obtain ⟨env, printed, trace⟩ := w
  simp only [Eval.leave]
  cases hpop : env.pop? with
  | none => exact ⟨rfl, fun _ => trivial⟩
  | some popped => exact .closed hpop

private theorem leave_throw {s : Watch} (hs : s.Sound) {stop : Stop} (h : s.Explains stop) :
    forget ((do moving Eval.leave; throw stop : Watched α) s) =
        (do Eval.leave; throw stop : Eval α) s.world ∧
      Ends P ((do moving Eval.leave; throw stop : Watched α) s) := by
  obtain ⟨⟨env, printed, trace⟩, seen⟩ := s
  simp only [moving, ofEval, Eval.leave, bind, EStateM.bind]
  cases hpop : env.pop? with
  | none => exact ⟨rfl, hs, trivial⟩
  | some popped =>
    have hclosed : Act.scopes.Leads env popped.2 := .closed hpop
    exact ⟨rfl, hs.see hclosed (List.forall_mem_nil _), h.moved _ _⟩

private theorem watches_within {push : Env → Env} (hpush : ∀ e, Act.scopes.Leads e (push e))
    {act : Watched α} {plain : Eval α} (h : Watches P act plain) :
    Watches P (within push act) (Eval.within push plain) := by
  intro s hs
  have henter : Watches (fun _ => True) (moving (Eval.enter push)) (Eval.enter push) :=
    watches_moving fun w => hpush w.env
  have hleave := watches_moving moves_leave
  obtain ⟨hforget, hends⟩ := watches_bind henter (fun _ _ => h) s hs
  simp only [within, bracket, Eval.within]
  rw [← hforget]
  cases hin : (do moving (Eval.enter push); act : Watched α) s with
  | ok a s' =>
    rw [hin] at hends
    exact watches_bind hleave (fun _ _ => watches_pure hends.2) s' hends.1
  | error stop s' =>
    rw [hin] at hends
    exact leave_throw hends.1 hends.2

private theorem watches_block {act : Watched α} {plain : Eval α} (h : Watches P act plain) :
    Watches P (within Env.push act) (Eval.within Env.push plain) :=
  watches_within (fun _ => .opened) h

private theorem watches_repeatWhile {test : Watched Bool} {plainTest : Eval Bool}
    {body : Watched Flow} {plainBody : Eval Flow} (ht : Watches (fun _ => True) test plainTest)
    (hb : Watches Flow.Proper body plainBody) (rounds : Nat) {last : Flow} (hlast : last.Proper) :
    Watches Flow.Proper ((Machine.watch tracing).repeatWhile test body rounds last)
      ((Machine.eval tracing).repeatWhile plainTest plainBody rounds last) := by
  induction rounds generalizing last with
  | zero => exact watches_throw fun _ => trivial
  | succ rounds ih =>
    refine watches_bind ht fun holds _ => ?_
    cases holds with
    | false => exact watches_pure hlast
    | true =>
      refine watches_bind hb fun flow hflow => ?_
      cases flow with
      | returned v => exact watches_pure hflow
      | next | value v => exact ih hflow

end Rules

/-- Function bodies that end properly, and as they do when they are not watched. -/
def Enters (enter : Block → Watched Flow) (plain : Block → Eval Flow) : Prop :=
  ∀ body, Watches Flow.Proper (enter body) (plain body)

/-- Calls on proper values that end properly, and as they do when they are not watched. -/
def Calls (call : Calling Watched) (plain : Calling Eval) : Prop :=
  ∀ f args, (∀ v ∈ args, v.Proper) → Watches Value.Proper (call f args) (plain f args)

section Calls

variable {tracing : Bool} {enter : Block → Watched Flow} {plain : Block → Eval Flow}

private theorem watches_invoke (h : Enters enter plain) :
    Calls ((Machine.watch tracing).invoke enter) ((Machine.eval tracing).invoke plain) := by
  intro f args hargs
  cases f with
  | builtin fn => exact watches_bind (watches_builtin fn hargs) fun _ hv => watches_give hv
  | user name params body closure =>
    have hbody := watches_bind (watches_defineAll tracing params hargs) fun _ _ => h body
    have hcall := watches_within (fun _ => .called closure) (watches_block hbody)
    exact watches_bind hcall fun _ hflow => watches_give hflow.callValue

private theorem watches_calling (h : Enters enter plain) :
    Calls ((Machine.watch tracing).calling ((Machine.watch tracing).invoke enter))
      ((Machine.eval tracing).calling ((Machine.eval tracing).invoke plain)) := by
  intro f args hargs
  have hnote := watches_see (fun _ => .arguments f args) hargs (watches_note tracing f args)
  refine watches_bind hnote fun _ _ => ?_
  split
  · exact watches_invoke h f args hargs
  · exact watches_raise fun _ => trivial

end Calls

end Watched

/-! ### Syntax -/

open Watched

section Syntax

variable {tracing : Bool} {call : Calling Watched} {plain : Calling Eval} {rounds : Nat}

mutual

private theorem Expr.watches (h : Calls call plain) :
    (e : Expr) → Watches Value.Proper (e.on (.watch tracing) call) (e.on (.eval tracing) plain)
  | .literal l => watches_give (Value.proper_of_isAtom l.isAtom_value)
  | .name x => watches_bind (watches_lookup x) fun _ hv => watches_give hv
  | .unary op e =>
    watches_bind (e.watches h) fun _ hv => watches_bind (watches_unary op hv) fun _ hu =>
      watches_give hu
  | .binary op a b => by
    have ha := a.watches h
    have hb := b.watches h
    have hbool (holds : Bool) : Watches Value.Proper (give (.bool holds)) (pure (.bool holds)) :=
      watches_give (Value.proper_of_isAtom rfl)
    have htest := watches_bind hb fun _ hv => watches_bind (watches_truth hv) fun holds _ =>
      hbool holds
    cases op with
    | and =>
      refine watches_bind ha fun lhs hl => watches_bind (watches_truth hl) fun holds _ => ?_
      cases holds with
      | false => exact hbool false
      | true => exact htest
    | or =>
      refine watches_bind ha fun lhs hl => watches_bind (watches_truth hl) fun holds _ => ?_
      cases holds with
      | false => exact htest
      | true => exact hbool true
    | _ =>
      exact watches_bind ha fun lhs hl => watches_bind hb fun rhs hr =>
        watches_bind (watches_binary _ hl hr) fun _ hu => watches_give hu
  | .access _ _ => watches_raise fun _ => trivial
  | .assign target e => by
    refine watches_bind (e.watches h) fun v hv => ?_
    cases target with
    | name x => exact watches_bind (watches_assign x hv) fun _ _ => watches_give hv
    | _ => exact watches_raise fun _ => trivial
  | .call callee args => by
    have hcall := watches_bind (watches_callee callee) fun f _ =>
      watches_bind (Expr.allWatches h args) fun vs hvs => h f vs hvs
    rw [bind_assoc, bind_assoc] at hcall
    exact hcall
  | .hole => watches_raise fun _ => trivial
termination_by structural e => e

private theorem Expr.allWatches (h : Calls call plain) :
    (es : List Expr) → Watches (fun vs => ∀ v ∈ vs, v.Proper)
      (Expr.allOn (.watch tracing) call es) (Expr.allOn (.eval tracing) plain es)
  | [] => watches_pure (List.forall_mem_nil _)
  | e :: es =>
    watches_bind (e.watches h) fun _ hv =>
      watches_bind (Expr.allWatches h es) fun _ hvs =>
        watches_pure (List.forall_mem_cons.2 ⟨hv, hvs⟩)
termination_by structural es => es

end

mutual

private theorem Stmt.watches (h : Calls call plain) :
    (s : Stmt) →
      Watches Flow.Proper (s.on (.watch tracing) call rounds) (s.on (.eval tracing) plain rounds)
  | .expr e => watches_bind (e.watches h) fun _ hv => watches_pure hv
  | .print e =>
    watches_bind (e.watches h) fun v _ => watches_bind (watches_print v) fun _ _ =>
      watches_pure trivial
  | .block body => watches_block (Stmt.allWatches h .next trivial body)
  | .var x none =>
    watches_bind (watches_define x Value.proper_unit) fun _ _ => watches_pure trivial
  | .var x (some e) =>
    watches_bind (e.watches h) fun v hv => watches_bind (watches_define x hv) fun _ _ =>
      watches_pure trivial
  | .branch cond yes no => by
    have hyes := Stmt.allWatches h .next trivial yes
    have hno := Stmt.allWatches h .next trivial no
    refine watches_bind (cond.watches h) fun v hv =>
      watches_bind (watches_truth hv) fun holds _ => ?_
    cases holds with
    | false => exact watches_block hno
    | true => exact watches_block hyes
  | .loop cond body =>
    watches_repeatWhile
      (watches_bind (cond.watches h) fun _ hv => watches_truth hv)
      (watches_block (Stmt.allWatches h .next trivial body)) _ trivial
  | .func name params body =>
    watches_bind (watches_declare name params body) fun _ _ => watches_pure trivial
  | .builtin name fn =>
    watches_bind (watches_define name (Value.proper_func _)) fun _ _ => watches_pure trivial
  | .ret none => watches_bind (watches_give Value.proper_unit) fun _ hv => watches_pure hv
  | .ret (some e) => watches_bind (e.watches h) fun _ hv => watches_pure hv
termination_by structural s => s

private theorem Stmt.allWatches (h : Calls call plain) (last : Flow) (hlast : last.Proper) :
    (ss : List Stmt) →
      Watches Flow.Proper (Stmt.allOn (.watch tracing) call rounds last ss)
        (Stmt.allOn (.eval tracing) plain rounds last ss)
  | [] => watches_pure hlast
  | s :: ss => by
    have hss (flow : Flow) (hflow : flow.Proper) := Stmt.allWatches h flow hflow ss
    refine watches_bind (s.watches h) fun flow hflow => ?_
    cases flow with
    | returned v => exact watches_pure hflow
    | next | value v => exact hss _ hflow
termination_by structural ss => ss

end

end Syntax

private theorem Watched.enters_enter (rounds : Nat) (tracing : Bool) (calls : Nat) :
    Enters ((Machine.watch tracing).enter (Machine.watch tracing).invoke rounds calls)
      ((Machine.eval tracing).enter (Machine.eval tracing).invoke rounds calls) := by
  induction calls with
  | zero => exact fun _ => watches_throw fun _ => trivial
  | succ calls ih =>
    exact fun body => watches_block (Stmt.allWatches (watches_calling ih) .next trivial body)

/-- A watched program ends properly, and as it does when it is not watched. -/
theorem Program.watches (limits : Limits) (tracing : Bool) (p : Program) :
    Watches Flow.Proper (p.watch limits tracing) (p.exec limits tracing) := by
  rw [← Program.on_eval]
  exact Stmt.allWatches (watches_calling (enters_enter _ _ _)) .next trivial p

/-! ### Units -/

namespace Source

/-- A watched unit ends in a sound watch, with a proper value if with any; where the run of its
program is stopped, the watch explains that. -/
def EndsProperly : EStateM.Result Failure Watch Flow → Prop
  | .ok flow s => s.Sound ∧ flow.Proper
  | .error failure s => s.Sound ∧ ∀ stop, failure = .stopped stop → s.Explains stop

/-- A unit that ends properly ends in a sound watch. -/
theorem EndsProperly.sound {res : EStateM.Result Failure Watch Flow} (h : EndsProperly res) :
    (endState res).Sound := by
  cases res with
  | ok flow s | error failure s => exact h.1

variable (limits : Limits) {s : Watch}

/-- A watched unit ends properly, and as it does when it is not watched. -/
theorem watches_unit (job : Job) (hs : s.Sound) :
    forget (watch limits job s) = exec limits job.flags job.source s.world ∧
      EndsProperly (watch limits job s) := by
  rw [exec_eq_prepare]
  have henv := env_prepare job s.world
  have hne := prepare_ne_stopped job s.world
  simp only [watch, bind, EStateM.bind, run]
  cases hprepare : prepare job s.world with
  | error failure w =>
    rw [hprepare] at henv hne
    refine ⟨rfl, hs.keep henv, fun stop hstop => ?_⟩
    exact (hne stop w (congrArg (EStateM.Result.error · w) hstop)).elim
  | ok p w =>
    rw [hprepare] at henv
    obtain ⟨hforget, hends⟩ := p.watches limits job.flags.tracing ⟨w, s.seen⟩ (hs.keep henv)
    simp only at hforget ⊢
    rw [← hforget]
    cases hrun : p.watch limits job.flags.tracing ⟨w, s.seen⟩ with
    | ok flow s' =>
      rw [hrun] at hends
      exact ⟨rfl, hends⟩
    | error stop s' =>
      rw [hrun] at hends
      refine ⟨rfl, hends.1, fun other hother => ?_⟩
      obtain rfl := Failure.stopped.inj hother
      exact hends.2

/-- Units that are watched one after the other leave a sound watch of their run. -/
theorem sound_watchAll (jobs : List Job) (hs : s.Sound) :
    (watchAll limits jobs s).Sound ∧
      (watchAll limits jobs s).world = execAll limits jobs s.world := by
  induction jobs generalizing s with
  | nil => exact ⟨hs, rfl⟩
  | cons job jobs ih =>
    obtain ⟨hforget, hends⟩ := watches_unit limits job hs
    obtain ⟨hsound, hworld⟩ := ih hends.sound
    refine ⟨hsound, hworld.trans ?_⟩
    rw [execAll, ← hforget]
    cases watch limits job s <;> rfl

end Source

/-- Whatever units are run one after the other, and however each of them ends, the log of the run
is valid and ends with the environment of the run. At every moment of the log all values that
something is done with are proper, and so are all values in scopes. The next unit ends with a proper
value, if with any. If it stops because truth is refused, then to a function; if because a type is
refused, then a name was called that has no function as its value, or a built-in function worked on
something that is no number. -/
theorem no_name_escapes (limits : Limits) (jobs : List Source.Job) :
    (Source.watchAll limits jobs .start).world = Source.execAll limits jobs .start ∧
      (Source.watchAll limits jobs .start).Sound ∧
      (∀ t ∈ (Source.watchAll limits jobs .start).seen, t.Proper) ∧
      (Source.execAll limits jobs .start).env.All Value.Proper ∧
      ∀ job : Source.Job,
        forget (Source.watch limits job (Source.watchAll limits jobs .start)) =
            Source.exec limits job.flags job.source (Source.execAll limits jobs .start) ∧
          Source.EndsProperly (Source.watch limits job (Source.watchAll limits jobs .start)) := by
  obtain ⟨hsound, hworld⟩ := Source.sound_watchAll limits jobs Watch.sound_start
  refine ⟨hworld, hsound, hsound.valid.proper, hworld ▸ hsound.all, fun job => ?_⟩
  have hunit := Source.watches_unit limits job hsound
  rw [hworld] at hunit
  exact hunit

end Lox
