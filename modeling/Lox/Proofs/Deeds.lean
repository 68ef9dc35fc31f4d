import Lox.Proofs.Machine
import Lox.Proofs.Record

/-!
# Accounts of runs

What a program does may have to be put into words: values that it prints, faults that it stops with,
and calls, where calls are noted. An account of a run is a list of these deeds, each with the world
in which it was done. The account is the same whether calls are noted or not, and it tells what a
run comes to: the run goes on until a deed cannot be put into words, and there it stops.
-/

namespace Lox

/-- What a running program does that may have to be put into words. -/
inductive Deed where
  | called (f : Function) (args : List Value)
  | printed (v : Value)
  | failed (f : Fault)

namespace Deed

/-- Whether the deed can be put into words. -/
def isWritable : Deed → Bool
  | called _ args => args.all Value.isWritable
  | printed v => v.isWritable
  | failed f => f.isWritable

/-- Whether the deed is put into words. Calls are only where they are noted. -/
def isWorded (tracing : Bool) : Deed → Bool
  | called _ _ => tracing
  | printed _ | failed _ => true

/-- What is noted about the deed. -/
def note? (tracing : Bool) : Deed → Option String
  | called f args =>
    if tracing then
      some ("call " ++ f.name ++ "(" ++ String.intercalate ", " (args.map Value.text) ++ ")")
    else none
  | printed _ | failed _ => none

/-- Whether a run is stopped by the deed, for want of words. -/
def stops (tracing : Bool) (d : Deed) : Bool := d.isWorded tracing && !d.isWritable

end Deed

/-- A deed, and the world in which it is done. -/
structure Doing where
  deed : Deed
  world : World

/-- The state of a run of which an account is given: its world, and its deeds in their order. -/
structure Account where
  world : World
  deeds : List Doing

/-- A world with another stack. -/
def World.withStack (stack : List ScopeId) (w : World) : World :=
  { w with env := ⟨w.env.scopes, stack⟩ }

/-- An account with another stack. -/
def Account.withStack (stack : List ScopeId) (a : Account) : Account :=
  ⟨a.world.withStack stack, a.deeds⟩

/-- A step of a run of which an account is given. -/
abbrev Accounted := EStateM Stop Account

namespace Accounted

/-- A step that adds nothing to the account. -/
def ofEval {α : Type} (act : Eval α) : Accounted α := fun ⟨w, deeds⟩ =>
  match act w with
  | .ok a w => .ok a ⟨w, deeds⟩
  | .error s w => .error s ⟨w, deeds⟩

/-- Adds a deed to the account. -/
def tell (d : Deed) : Accounted Unit := fun ⟨w, deeds⟩ => .ok () ⟨w, deeds ++ [⟨d, w⟩]⟩

/-- Stops with a fault. -/
def raise {α : Type} (f : Fault) : Accounted α := do
  tell (.failed f)
  ofEval (Eval.raise f)

/-- The result of an operation on values. -/
def lift {α : Type} : Except Fault α → Accounted α
  | .ok a => pure a
  | .error f => raise f

/-- The value of a variable. -/
def lookup (x : String) : Accounted Value := fun a =>
  match a.world.env.get? x with
  | some v => .ok v a
  | none => raise (.undefinedVariable x) a

/-- Gives a variable that exists a new value. -/
def assign (x : String) (v : Value) : Accounted Unit := fun a =>
  match a.world.env.owner? x with
  | some _ => ofEval (Eval.assign x v) a
  | none => raise (.undefinedVariable x) a

/-- Runs `act` with one more scope on the stack, and takes that scope away again, however `act`
ends. -/
def within (push : Env → Env) (act : Accounted Flow) : Accounted Flow :=
  bracket (ofEval (Eval.enter push)) (ofEval Eval.leave) act

/-- Prints a value. -/
def print (v : Value) : Accounted Unit := do
  tell (.printed v)
  ofEval (Eval.print v)

end Accounted

/-- The operations of evaluation, with an account of what is done. No calls are noted. -/
def Machine.account : Machine Accounted where
  tooDeep := throw .tooDeep
  exhausted := throw .exhausted
  raise := Accounted.raise
  ask _ result := Accounted.lift result
  give := pure
  lookup := Accounted.lookup
  define x v := Accounted.ofEval (Eval.define x v)
  assign := Accounted.assign
  declare name params body := do
    let closure ← Accounted.ofEval Eval.capture
    Accounted.ofEval (Eval.define name (.func (.user name params body closure)))
  block := Accounted.within Env.push
  parameters := Accounted.within Env.push
  captured _ closure := Accounted.within (Env.pushShared closure)
  print := Accounted.print
  note f args := Accounted.tell (.called f args)

/-- The deeds of a program that is run in an environment, and what it comes to. -/
def Program.account (limits : Limits) (p : Program) (e : Env) : EStateM.Result Stop Account Flow :=
  p.on .account limits ⟨⟨e, "", #[]⟩, []⟩

/-- Stopping leaves the world as it is. -/
theorem Eval.throw_eq {α : Type} (stop : Stop) (w : World) :
    (throw stop : Eval α) w = .error stop w := rfl

/-! ### What an account tells -/

/-- What was there before a run: the text that was printed and the notes that were taken, and
whether the run takes notes of calls. -/
structure Setting where
  tracing : Bool
  printed : String
  trace : Array String

namespace Setting

/-- The notes of deeds. -/
def notes (s : Setting) (deeds : List Doing) : Array String :=
  s.trace ++ (deeds.filterMap fun d => d.deed.note? s.tracing).toArray

/-- The first deed that stops a run. -/
def halt? (s : Setting) (deeds : List Doing) : Option Doing :=
  deeds.find? fun d => d.deed.stops s.tracing

/-- The deeds before the first one that stops a run. -/
def before (s : Setting) (deeds : List Doing) : List Doing :=
  deeds.takeWhile fun d => !d.deed.stops s.tracing

/-- The world of an account. -/
def world (s : Setting) (a : Account) : World :=
  ⟨a.world.env, s.printed ++ a.world.printed, s.notes a.deeds⟩

/-- The world in which a run stops at a deed, with this stack. -/
def haltWorld (s : Setting) (stack : List ScopeId) (deeds : List Doing) (d : Doing) : World :=
  ⟨⟨d.world.env.scopes, stack⟩, s.printed ++ d.world.printed, s.notes (s.before deeds)⟩

/-- What a run comes to that no deed stops. -/
def seen {α : Type} (s : Setting) (res : EStateM.Result Stop Account α) :
    EStateM.Result Stop World α := mapEnd s.world res

/-- What a run comes to by its account, if the stack was this one when it began. -/
def outcome {α : Type} (s : Setting) (stack : List ScopeId) (res : EStateM.Result Stop Account α) :
    EStateM.Result Stop World α :=
  match s.halt? (endState res).deeds with
  | some d => .error .unwritable (s.haltWorld stack (endState res).deeds d)
  | none => s.seen res

variable {s : Setting}

/-- Later deeds do not change where a run stops. -/
theorem halt?_of_prefix {deeds more : List Doing} {d : Doing} (h : deeds <+: more)
    (hd : s.halt? deeds = some d) : s.halt? more = some d ∧ s.before more = s.before deeds := by
  obtain ⟨later, rfl⟩ := h
  induction deeds with
  | nil => cases hd
  | cons first deeds ih =>
    by_cases hfirst : first.deed.stops s.tracing = true
    · simp_all [halt?, before]
    · simp_all [halt?, before]

/-- Where no deed stops the run, all come before. -/
theorem before_of_halt? {deeds : List Doing} (h : s.halt? deeds = none) :
    s.before deeds = deeds := by
  induction deeds with
  | nil => rfl
  | cons first deeds ih =>
    by_cases hfirst : first.deed.stops s.tracing = true
    · simp_all [halt?, before]
    · simp_all [halt?, before]

/-- A run stops at the first deed that stops it. -/
theorem outcome_of_halt {α : Type} {stack : List ScopeId} {res : EStateM.Result Stop Account α}
    {d : Doing} (h : s.halt? (endState res).deeds = some d) :
    s.outcome stack res = .error .unwritable (s.haltWorld stack (endState res).deeds d) := by
  simp only [outcome, h]

/-- A run that no deed stops ends as its account does. -/
theorem outcome_of_none {α : Type} {stack : List ScopeId} {res : EStateM.Result Stop Account α}
    (h : s.halt? (endState res).deeds = none) :
    s.outcome stack res = s.seen res := by
  simp only [outcome, h]

/-- What a result comes to in the account, and in a run that takes notes, from the state `a` on. The
stack is as before, deeds are only added, and a run without notes does not want for words unless a
deed stops it. -/
structure Told {α : Type} (s : Setting) (a : Account) (res : EStateM.Result Stop Account α)
    (res' : EStateM.Result Stop World α) : Prop where
  stack : (endState res).world.env.inner = a.world.env.inner
  deeds : a.deeds <+: (endState res).deeds
  honest : ∀ a', res = .error .unwritable a' → (s.halt? a'.deeds).isSome = true
  outcome : s.halt? a.deeds = none → res' = s.outcome a.world.env.inner res

/-- An account of a step tells what the step comes to. -/
def Tells {α : Type} (s : Setting) (acc : Accounted α) (act : Eval α) : Prop :=
  ∀ a, s.Told a (acc a) (act (s.world a))

/-- A step that ends well and only concerns the environment. -/
theorem told_ok {α : Type} {a : Account} {x : α} {e : Env} (h : e.inner = a.world.env.inner) :
    s.Told a (.ok x ⟨{ a.world with env := e }, a.deeds⟩) (.ok x { s.world a with env := e }) where
  stack := h
  deeds := List.prefix_refl _
  honest _ h := by cases h
  outcome hnone := by rw [outcome_of_none hnone]; rfl

/-- A step that does nothing. -/
theorem tells_pure {α : Type} (x : α) : s.Tells (pure x) (pure x) := fun _ => told_ok rfl

/-- A step that stops for another reason than want of words. -/
theorem tells_throw {α : Type} {stop : Stop} (h : stop ≠ .unwritable) :
    s.Tells (throw stop : Accounted α) (throw stop) := fun a => {
  stack := rfl
  deeds := List.prefix_refl _
  honest := by
    rintro a' hres
    cases hres
    exact (h rfl).elim
  outcome := fun hnone => by
    change EStateM.Result.error stop (s.world a) = s.outcome _ (.error stop a)
    rw [outcome_of_none hnone]
    rfl }

/-- One step after the other. If the first one is stopped by a deed, the second one adds deeds to
the account only, and these come later. -/
theorem tells_bind {α β : Type} {acc : Accounted α} {act : Eval α} {next : α → Accounted β}
    {next' : α → Eval β} (h : s.Tells acc act) (hnext : ∀ x, s.Tells (next x) (next' x)) :
    s.Tells (acc >>= next) (act >>= next') := by
  intro a
  have hact := h a
  simp only [bind, EStateM.bind]
  generalize act (s.world a) = res' at hact
  cases hres : acc a with
  | error stop a' =>
    rw [hres] at hact
    refine ⟨hact.stack, hact.deeds, fun _ h => hact.honest _ (by cases h; rfl), fun hnone => ?_⟩
    rw [hact.outcome hnone]
    cases hhalt : s.halt? a'.deeds with
    | none => rw [outcome_of_none hhalt, outcome_of_none hhalt]; rfl
    | some d => rw [outcome_of_halt hhalt, outcome_of_halt hhalt]; rfl
  | ok x a' =>
    rw [hres] at hact
    have hthen := hnext x a'
    refine ⟨hthen.stack.trans hact.stack, hact.deeds.trans hthen.deeds, hthen.honest,
      fun hnone => ?_⟩
    rw [hact.outcome hnone, ← hact.stack]
    cases hhalt : s.halt? a'.deeds with
    | none =>
      rw [outcome_of_none hhalt]
      exact hthen.outcome hhalt
    | some d =>
      -- The account goes on behind the deed, but the run does not.
      obtain ⟨hhalt', hbefore⟩ := halt?_of_prefix hthen.deeds hhalt
      rw [outcome_of_halt hhalt, outcome_of_halt hhalt', haltWorld, haltWorld, hbefore]
      rfl

/-! ### Steps that add a deed -/

/-- Where a deed stops the run, the world is as it was before the deed. -/
theorem outcome_of_stops {α : Type} {a : Account} {d : Deed} {res : EStateM.Result Stop Account α}
    (hnone : s.halt? a.deeds = none) (hres : (endState res).deeds = a.deeds ++ [⟨d, a.world⟩])
    (h : d.stops s.tracing = true) :
    s.outcome a.world.env.inner res = .error .unwritable (s.world a) := by
  have hhalt : s.halt? (endState res).deeds = some ⟨d, a.world⟩ := by
    rw [halt?] at hnone
    simp [halt?, hres, List.find?_append, hnone, h]
  have hbefore : s.before (endState res).deeds = a.deeds := by
    have hall := before_of_halt? hnone
    rw [before] at hall
    rw [before, hres, List.takeWhile_append_of_pos, List.takeWhile_cons, h]
    · simp
    · rw [halt?, List.find?_eq_none] at hnone
      simpa using hnone
  rw [outcome_of_halt hhalt, haltWorld, hbefore]
  rfl

/-- A step that adds a deed which stops the run. -/
theorem told_of_stops {α : Type} {a : Account} {d : Deed} {res : EStateM.Result Stop Account α}
    (h : d.stops s.tracing = true)
    (hstack : (endState res).world.env.inner = a.world.env.inner)
    (hdeeds : (endState res).deeds = a.deeds ++ [⟨d, a.world⟩]) :
    s.Told a res (.error .unwritable (s.world a)) where
  stack := hstack
  deeds := hdeeds ▸ List.prefix_append _ _
  honest a' hres := by
    subst hres
    rw [show a'.deeds = _ from hdeeds]
    simp [halt?, h]
  outcome hnone := (outcome_of_stops hnone hdeeds h).symm

/-- A step that adds a deed which does not stop the run. -/
theorem told_of_goes {α : Type} {a : Account} {d : Deed} {res : EStateM.Result Stop Account α}
    (h : d.stops s.tracing = false)
    (hstack : (endState res).world.env.inner = a.world.env.inner)
    (hdeeds : (endState res).deeds = a.deeds ++ [⟨d, a.world⟩])
    (hres : ∀ a', res ≠ .error .unwritable a') : s.Told a res (s.seen res) where
  stack := hstack
  deeds := hdeeds ▸ List.prefix_append _ _
  honest a' h := (hres a' h).elim
  outcome hnone := by
    rw [outcome_of_none]
    rw [hdeeds, halt?, List.find?_append, List.find?_cons, h]
    rw [halt?] at hnone
    rw [hnone]
    rfl

/-- The world of an account does not change by a deed of which nothing is noted. -/
theorem world_tell {a : Account} {d : Deed} (h : d.note? s.tracing = none) :
    s.world ⟨a.world, a.deeds ++ [⟨d, a.world⟩]⟩ = s.world a := by
  simp [world, notes, h]

/-- Stopping with a fault. -/
theorem tells_raise {α : Type} (f : Fault) :
    s.Tells (Accounted.raise f : Accounted α) (Eval.raise f) := by
  intro a
  have hres : (Accounted.raise f : Accounted α) a =
      .error (if f.isWritable then .fault f else .unwritable)
        ⟨a.world, a.deeds ++ [⟨.failed f, a.world⟩]⟩ := rfl
  have hres' : (Eval.raise f : Eval α) (s.world a) =
      .error (if f.isWritable then .fault f else .unwritable) (s.world a) := rfl
  rw [hres, hres']
  cases h : f.isWritable with
  | true =>
    rw [← world_tell (d := .failed f) rfl]
    exact told_of_goes (by simp [Deed.stops, Deed.isWritable, h]) rfl rfl (by simp)
  | false => exact told_of_stops (by simp [Deed.stops, Deed.isWorded, Deed.isWritable, h]) rfl rfl

/-- The result of an operation on values. -/
theorem tells_lift {α : Type} (result : Except Fault α) :
    s.Tells (Accounted.lift result) (Eval.lift result) := by
  cases result with
  | ok x => exact tells_pure x
  | error f => exact tells_raise f

/-- Printing a value. -/
theorem tells_print (v : Value) : s.Tells (Accounted.print v) (Eval.print v) := by
  intro a
  cases h : v.isWritable with
  | true =>
    have hres : Accounted.print v a =
        .ok () ⟨{ a.world with printed := a.world.printed ++ (v.text ++ "\n") },
          a.deeds ++ [⟨.printed v, a.world⟩]⟩ := by
      simp [Accounted.print, Accounted.tell, Accounted.ofEval, Eval.print, Value.text?, h, bind,
        EStateM.bind, Eval.write]
    have hres' : Eval.print v (s.world a) = s.seen (Accounted.print v a) := by
      rw [hres]
      simp [Eval.print, Value.text?, h, Eval.write, seen, mapEnd, world, notes, Deed.note?,
        String.append_assoc]
    rw [hres', hres]
    exact told_of_goes (by simp [Deed.stops, Deed.isWritable, h]) rfl rfl (by simp)
  | false =>
    have hres : Accounted.print v a =
        .error .unwritable ⟨a.world, a.deeds ++ [⟨.printed v, a.world⟩]⟩ := by
      simp [Accounted.print, Accounted.tell, Accounted.ofEval, Eval.print, Value.text?, h, bind,
        EStateM.bind, Eval.throw_eq]
    have hres' : Eval.print v (s.world a) = .error .unwritable (s.world a) := by
      simp [Eval.print, Value.text?, h, Eval.throw_eq]
    rw [hres, hres']
    exact told_of_stops (by simp [Deed.stops, Deed.isWorded, Deed.isWritable, h]) rfl rfl

/-- The texts of arguments are there if all can be written out. -/
theorem texts_eq (args : List Value) :
    Eval.texts args = if args.all Value.isWritable then some (args.map Value.text) else none := by
  induction args with
  | nil => rfl
  | cons v args ih => cases h : v.isWritable <;> cases h' : args.all Value.isWritable <;>
      simp [Eval.texts, ih, Value.text?, h, h']

/-- Taking note of a call. -/
theorem tells_note (f : Function) (args : List Value) :
    s.Tells (Accounted.tell (.called f args))
      (Eval.noteWhere s.tracing f args) := by
  intro a
  rw [Eval.noteWhere]
  have hres : Accounted.tell (.called f args) a =
      .ok () ⟨a.world, a.deeds ++ [⟨.called f args, a.world⟩]⟩ := rfl
  cases htracing : s.tracing with
  | false =>
    have hworld := s.world_tell (a := a) (d := .called f args) (by simp [Deed.note?, htracing])
    have hres' : (pure () : Eval Unit) (s.world a) =
        s.seen (Accounted.tell (.called f args) a) := by
      rw [hres, seen, mapEnd, hworld]
      rfl
    rw [if_neg Bool.false_ne_true, hres', hres]
    exact told_of_goes (by simp [Deed.stops, Deed.isWorded, htracing]) rfl rfl (by simp)
  | true =>
    rw [if_pos rfl]
    cases h : args.all Value.isWritable with
    | true =>
      have hres' : Eval.noteCall f args (s.world a) =
          s.seen (Accounted.tell (.called f args) a) := by
        simp [hres, seen, mapEnd, Eval.noteCall, texts_eq, h, Eval.note, world, notes, Deed.note?,
          htracing]
      rw [hres', hres]
      exact told_of_goes (by simp [Deed.stops, Deed.isWritable, h]) rfl rfl (by simp)
    | false =>
      have hres' : Eval.noteCall f args (s.world a) = .error .unwritable (s.world a) := by
        simp [Eval.noteCall, texts_eq, h, Eval.throw_eq]
      rw [hres', hres]
      exact told_of_stops (by simp [Deed.stops, Deed.isWorded, Deed.isWritable, h, htracing])
        rfl rfl

/-! ### Steps that concern the environment -/

/-- A step that ends well, keeps the stack and changes nothing but the environment. -/
theorem tells_ofEval {α : Type} {act : Eval α}
    (h : ∀ e : Env, ∃ x e', e'.inner = e.inner ∧
      ∀ printed trace, act ⟨e, printed, trace⟩ = .ok x ⟨e', printed, trace⟩) :
    s.Tells (Accounted.ofEval act) act := by
  intro a
  obtain ⟨x, e', hinner, hact⟩ := h a.world.env
  have hres : Accounted.ofEval act a = .ok x ⟨{ a.world with env := e' }, a.deeds⟩ := by
    have hworld := hact a.world.printed a.world.trace
    simp only [Accounted.ofEval, hworld]
  rw [hres, show act (s.world a) = _ from hact _ _]
  exact told_ok hinner

/-- Binding a name. -/
theorem tells_define (x : String) (v : Value) :
    s.Tells (Accounted.ofEval (Eval.define x v)) (Eval.define x v) :=
  tells_ofEval fun e => ⟨(), e.define x v, rfl, fun _ _ => rfl⟩

/-- Taking a copy of the innermost scope. -/
theorem tells_capture : s.Tells (Accounted.ofEval Eval.capture) Eval.capture :=
  tells_ofEval fun e => ⟨e.snapshot.1, e.snapshot.2, rfl, fun _ _ => rfl⟩

/-- Reading a variable, or stopping for want of it. -/
theorem tells_lookup (x : String) : s.Tells (Accounted.lookup x) (Eval.lookup x) := by
  intro a
  simp only [Accounted.lookup, Eval.lookup, world]
  cases a.world.env.get? x with
  | some v => exact told_ok rfl
  | none => exact tells_raise (.undefinedVariable x) a

/-- Giving a variable a value, or stopping for want of it. -/
theorem tells_assign (x : String) (v : Value) :
    s.Tells (Accounted.assign x v) (Eval.assign x v) := by
  intro a
  simp only [Accounted.assign, Accounted.ofEval, Eval.assign, world]
  cases a.world.env.owner? x with
  | some id => exact told_ok rfl
  | none => exact tells_raise (.undefinedVariable x) a

/-- What is done in a scope ends as it does, but without the scope. -/
theorem within_eq {push : Env → Env} {act : Eval Flow} {w : World} {id : ScopeId}
    {stack : List ScopeId} {res : EStateM.Result Stop World Flow}
    (hact : act { w with env := push w.env } = res)
    (hstack : (endState res).env.inner = id :: stack) :
    Eval.within push act w = mapEnd (World.withStack stack) res := by
  have henter : (do Eval.enter push; act : Eval Flow) w = res := hact
  simp only [Eval.within, henter]
  cases res with
  | ok flow w' | error stop w' =>
    obtain ⟨⟨scopes, inner⟩, printed, trace⟩ := w'
    cases hstack
    rfl

/-- The same of an account. -/
theorem within_account_eq {push : Env → Env} {acc : Accounted Flow} {a : Account} {id : ScopeId}
    {stack : List ScopeId} {res : EStateM.Result Stop Account Flow}
    (hacc : acc ⟨{ a.world with env := push a.world.env }, a.deeds⟩ = res)
    (hstack : (endState res).world.env.inner = id :: stack) :
    Accounted.within push acc a = mapEnd (Account.withStack stack) res := by
  have henter : (do Accounted.ofEval (Eval.enter push); acc : Accounted Flow) a = res := hacc
  simp only [Accounted.within, bracket, henter]
  cases res with
  | ok flow a' | error stop a' =>
    obtain ⟨⟨⟨scopes, inner⟩, printed, trace⟩, deeds⟩ := a'
    cases hstack
    rfl

/-- It makes no difference when the stack is cut, whether a deed has stopped the run or not. -/
theorem outcome_withStack (stack stack' : List ScopeId) (res : EStateM.Result Stop Account Flow) :
    s.outcome stack (mapEnd (Account.withStack stack) res) =
      mapEnd (World.withStack stack) (s.outcome stack' res) := by
  have hdeeds : (endState (mapEnd (Account.withStack stack) res)).deeds = (endState res).deeds := by
    rw [endState_mapEnd]
    rfl
  cases hhalt : s.halt? (endState res).deeds with
  | none =>
    rw [outcome_of_none hhalt, outcome_of_none (hdeeds ▸ hhalt)]
    cases res <;> rfl
  | some d =>
    rw [outcome_of_halt hhalt, outcome_of_halt (hdeeds ▸ hhalt), hdeeds]
    rfl

/-- A run that is stopped by a deed has its stack cut as it ends, and any other keeps it. -/
theorem stack_outcome {α : Type} {stack : List ScopeId} {res : EStateM.Result Stop Account α}
    (h : (endState res).world.env.inner = stack) :
    (endState (s.outcome stack res)).env.inner = stack := by
  cases hhalt : s.halt? (endState res).deeds with
  | none =>
    rw [outcome_of_none hhalt, seen, endState_mapEnd]
    exact h
  | some d =>
    rw [outcome_of_halt hhalt]
    rfl

/-- What is done in a scope. Its account leaves the scope at the end, and a run that a deed stops
leaves it there. -/
theorem tells_within {push : Env → Env} (hpush : ∀ e, ∃ id, (push e).inner = id :: e.inner)
    {acc : Accounted Flow} {act : Eval Flow} (h : s.Tells acc act) :
    s.Tells (Accounted.within push acc) (Eval.within push act) := by
  intro a
  obtain ⟨id, hid⟩ := hpush a.world.env
  have hact := h ⟨{ a.world with env := push a.world.env }, a.deeds⟩
  have hstack := hact.stack.trans hid
  rw [within_account_eq rfl hstack]
  refine ⟨?_, ?_, fun a' hres => ?_, fun hnone => ?_⟩
  · rw [endState_mapEnd]
    rfl
  · rw [endState_mapEnd]
    exact hact.deeds
  · generalize acc _ = res at hact hres
    cases res with
    | ok => cases hres
    | error stop a₁ =>
      cases hres
      exact hact.honest a₁ rfl
  · have houtcome := hact.outcome hnone
    rw [hid] at houtcome
    rw [outcome_withStack _ (id :: a.world.env.inner), ← houtcome]
    refine within_eq rfl (?_ : _ = id :: a.world.env.inner)
    rw [show act _ = _ from houtcome]
    exact stack_outcome hstack

/-- Evaluation does what its account tells. -/
def simulation (s : Setting) : Machine.Simulation .account (.eval s.tracing) where
  rel := s.Tells
  pure := tells_pure
  bind := tells_bind
  tooDeep := tells_throw (by simp)
  exhausted := tells_throw (by simp)
  raise := tells_raise
  ask _ := tells_lift
  give := tells_pure
  lookup := tells_lookup
  define := tells_define
  assign := tells_assign
  declare name _ _ := tells_bind tells_capture fun _ => tells_define name _
  block := tells_within fun e => ⟨e.scopes.size, rfl⟩
  print := tells_print
  note := tells_note

private theorem scoped_simulation (s : Setting) : s.simulation.Scoped where
  parameters := tells_within fun e => ⟨e.scopes.size, rfl⟩
  captured _ closure := tells_within fun _ => ⟨closure, rfl⟩

end Setting

private theorem Program.told_account (limits : Limits) (tracing : Bool) (p : Program) (w : World) :
    Setting.Told ⟨tracing, w.printed, w.trace⟩ ⟨⟨w.env, "", #[]⟩, []⟩ (p.account limits w.env)
      (p.exec limits tracing w) := by
  have htold := (Setting.scoped_simulation ⟨tracing, w.printed, w.trace⟩).program limits p
    ⟨⟨w.env, "", #[]⟩, []⟩
  have hworld : Setting.world ⟨tracing, w.printed, w.trace⟩ ⟨⟨w.env, "", #[]⟩, []⟩ = w := by
    simp [Setting.world, Setting.notes]
  rw [Program.on_eval, hworld] at htold
  exact htold

/-- What a program comes to is told by its deeds, whether calls are noted or not. -/
theorem Program.exec_eq_outcome (limits : Limits) (tracing : Bool) (p : Program) (w : World) :
    p.exec limits tracing w =
      Setting.outcome ⟨tracing, w.printed, w.trace⟩ w.env.inner (p.account limits w.env) := by
  exact (p.told_account limits tracing w).outcome rfl

/-- A program wants for words just if one of its deeds does that has to be put into words. -/
theorem Program.exec_unwritable_iff (limits : Limits) (tracing : Bool) (p : Program) (w : World) :
    (∃ w', p.exec limits tracing w = .error .unwritable w') ↔
      ∃ d ∈ (endState (p.account limits w.env)).deeds, d.deed.stops tracing = true := by
  have hhonest := (p.told_account limits tracing w).honest
  rw [p.exec_eq_outcome, ← List.find?_isSome]
  change _ ↔ (Setting.halt? ⟨tracing, w.printed, w.trace⟩ _).isSome = true
  cases hhalt : Setting.halt? ⟨tracing, w.printed, w.trace⟩
      (endState (p.account limits w.env)).deeds with
  | some d => simp [Setting.outcome_of_halt hhalt]
  | none =>
    rw [Setting.outcome_of_none hhalt, Setting.seen]
    constructor
    · rintro ⟨w', hseen⟩
      change ∀ a', p.account limits w.env = .error .unwritable a' → _ at hhonest
      generalize p.account limits w.env = res at hhonest hhalt hseen
      cases res with
      | ok => cases hseen
      | error stop a' =>
        cases hseen
        rw [← hhonest a' rfl, ← hhalt]
        rfl
    · intro h
      cases h

end Lox
