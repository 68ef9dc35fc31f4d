import Lox.Proofs.Record

/-!
# Watched evaluation

Evaluation on a machine that lists what it does with values: which ones it hands to operators,
tests, calls, passes and stores, and which ones expressions have. Each entry of the list has the
world at that moment, and there is an entry for each change of the scopes, so the list shows every
environment that a run goes through.
-/

namespace Lox

namespace Act

/-- The values that something is done with. -/
def values : Act → List Value
  | operands vs => vs
  | condition v | callee _ v | outcome v | stored _ v => [v]
  | arguments _ args | builtin _ args => args
  | scopes => []

/-- Whether something is done with values. -/
def isUse : Act → Bool
  | scopes => false
  | _ => true

end Act

/-- Something that a program does, with the world at that moment. -/
structure Sighting where
  act : Act
  world : World

/-- The state of a watched run, with what was seen of it, the latest first. -/
structure Watch where
  world : World
  seen : List Sighting

/-- What was last done with values. -/
def Watch.lastUse? (s : Watch) : Option Sighting := s.seen.find? fun sighting => sighting.act.isUse

/-- A step of a watched run. -/
abbrev Watched := EStateM Stop Watch

namespace Watched

/-- The result of a watched run without what was seen. -/
def forget {ε α : Type} : EStateM.Result ε Watch α → EStateM.Result ε World α
  | .ok a s => .ok a s.world
  | .error e s => .error e s.world

/-- A step of which nothing is seen. -/
def ofEval {α : Type} (act : Eval α) : Watched α := fun ⟨w, seen⟩ =>
  match act w with
  | .ok a w => .ok a ⟨w, seen⟩
  | .error s w => .error s ⟨w, seen⟩

/-- Something is seen. -/
def see (act : Act) : Watched Unit := fun ⟨w, seen⟩ => .ok () ⟨w, ⟨act, w⟩ :: seen⟩

/-- The result of an operation on values, which is seen. -/
def ask {α : Type} (act : Act) (result : Except Fault α) : Watched α := do
  see act
  ofEval (Eval.lift result)

/-- Gives a value, which is seen. -/
def give (v : Value) : Watched Value := do
  see (.outcome v)
  pure v

/-- Binds a variable in the innermost scope. -/
def define (x : String) (v : Value) : Watched Unit := do
  ofEval (Eval.define x v)
  see (.stored x v)

/-- Gives a variable that exists a new value. -/
def assign (x : String) (v : Value) : Watched Unit := do
  ofEval (Eval.assign x v)
  see (.stored x v)

/-- A step that changes the scopes. -/
def moving {α : Type} (act : Eval α) : Watched α := do
  let a ← ofEval act
  see .scopes
  pure a

/-- Runs `act` with one more scope on the stack, and takes that scope away again, however `act`
ends. -/
def within {α : Type} (push : Env → Env) (act : Watched α) : Watched α :=
  bracket (moving (Eval.enter push)) (moving Eval.leave) act

end Watched

/-- The operations of evaluation, of which it is seen what they do. -/
def Machine.watch (tracing : Bool) : Machine Watched where
  tooDeep := throw .tooDeep
  exhausted := throw .exhausted
  raise f := Watched.ofEval (Eval.raise f)
  ask := Watched.ask
  give := Watched.give
  lookup x := Watched.ofEval (Eval.lookup x)
  define := Watched.define
  assign := Watched.assign
  declare name params body := do
    let closure ← Watched.moving Eval.capture
    Watched.define name (.func (.user name params body closure))
  block := Watched.within Env.push
  parameters := Watched.within Env.push
  captured _ closure := Watched.within (Env.pushShared closure)
  print v := Watched.ofEval (Eval.print v)
  note f args := do
    Watched.see (.arguments f args)
    Watched.ofEval (Eval.noteWhere tracing f args)

/-- Runs a program in the scope that is innermost and watches the run. -/
def Program.watch (limits : Limits) (tracing : Bool) (p : Program) : Watched Flow :=
  p.on (.watch tracing) limits

/-- A watch of a run in which nothing has happened yet. -/
def Watch.start : Watch := ⟨.start, []⟩

namespace Source

/-- Runs a unit and watches it. -/
def watch (limits : Limits) (job : Job) (s : Watch) : EStateM.Result Failure Watch Flow :=
  match prepare job s.world with
  | .error failure w => .error failure ⟨w, s.seen⟩
  | .ok p w =>
    match p.watch limits job.flags.tracing ⟨w, s.seen⟩ with
    | .ok flow s => .ok flow s
    | .error stop s => .error (.stopped stop) s

/-- The watched run of units one after the other. -/
def watchAll (limits : Limits) : List Job → Watch → Watch
  | [], s => s
  | job :: jobs, s => watchAll limits jobs (endState (watch limits job s))

end Source

end Lox
