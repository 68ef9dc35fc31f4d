import Lox.Proofs.Machine
import Lox.Proofs.Results
import Lox.Source

/-!
# Recorded evaluation

Evaluation on a machine that writes a history: what was bound, assigned, declared, opened and
closed, each time with the environment after it. A history is complete: between two of its moments
the environment does not change. Recorded evaluation is evaluation once the history is forgotten, so
the moments of a history are the states that a run goes through (`Lox.Proofs.Erasure`).
-/

namespace Lox

/-- The scope of the variables that a declared function has captured. -/
def Function.closure? : Function → Option ScopeId
  | .user _ _ _ closure => some closure
  | .builtin _ => none

/-- Why a scope lies on the stack. -/
inductive Layer where
  /-- The scope of a block, made when the block was entered. -/
  | block (id : ScopeId)
  /-- The scope of the parameters of a call, made for it. -/
  | parameters (id : ScopeId)
  /-- The captured variables of a function that is being called. -/
  | call (f : Function) (closure : ScopeId)

namespace Layer

/-- The scope itself. -/
def scope : Layer → ScopeId
  | block id | parameters id => id
  | call _ closure => closure

/-- The function that is being called. -/
def callee? : Layer → Option Function
  | call f _ => some f
  | block _ | parameters _ => none

/-- The scope, where it was made for this layer. -/
def made? : Layer → Option ScopeId
  | block id | parameters id => some id
  | call _ _ => none

/-- Lays the scope on the stack. -/
def push : Layer → Env → Env
  | block _ | parameters _ => Env.push
  | call _ closure => Env.pushShared closure

/-- The layer of a block that is entered now. -/
def forBlock (e : Env) : Layer := block e.scopes.size

/-- The layer of the parameters of a call that is entered now. -/
def forParameters (e : Env) : Layer := parameters e.scopes.size

end Layer

/-- What can happen to an environment. -/
inductive Event where
  | bound (x : String) (v : Value)
  | assigned (x : String) (v : Value)
  /-- A function value was made from a declaration. -/
  | declared (f : Function)
  | opened (l : Layer)
  | closed (l : Layer)

/-- An event, with the environment after it. -/
structure Moment where
  event : Event
  env : Env

/-- What has happened to the environment of a run, the latest moment first. -/
abbrev History := List Moment

namespace History

/-- The environment after the history; every history begins with the initial one. -/
def env : History → Env
  | [] => Env.initial
  | m :: _ => m.env

/-- The layers that are open, the innermost first. -/
def layers : History → List Layer
  | [] => []
  | ⟨.opened l, _⟩ :: past => l :: layers past
  | ⟨.closed _, _⟩ :: past => (layers past).tail
  | _ :: past => layers past

/-- The functions whose calls are running, the innermost first; one that calls itself stands
there once for each call. -/
def active (past : History) : List Function := past.layers.filterMap Layer.callee?

/-- The function values that declarations have made, one for each execution of a declaration. -/
def declared (past : History) : List Function :=
  past.filterMap fun m => match m.event with
    | .declared f => some f
    | _ => none

/-- The scopes that were made for blocks and for parameters. -/
def made (past : History) : List ScopeId :=
  past.filterMap fun m => match m.event with
    | .opened l => l.made?
    | _ => none

/-- Whether a call of the function was begun. -/
def calls (past : History) (f : Function) : Prop :=
  ∃ m ∈ past, ∃ closure, m.event = .opened (.call f closure)

end History

/-- The state of a recorded run. -/
structure Run where
  world : World
  past : History

/-- A step of a recorded run. -/
abbrev Recorded := EStateM Stop Run

namespace Recorded

/-- A step of a run that is not recorded. -/
def ofEval {α : Type} (act : Eval α) : Recorded α := fun ⟨w, past⟩ =>
  match act w with
  | .ok a w => .ok a ⟨w, past⟩
  | .error s w => .error s ⟨w, past⟩

/-- Records what was just done. -/
def mark (event : Event) : Recorded Unit := fun ⟨w, past⟩ =>
  .ok () ⟨w, ⟨event, w.env⟩ :: past⟩

/-- The result of an operation on values. -/
def lift {α : Type} (result : Except Fault α) : Recorded α := ofEval (Eval.lift result)

/-- Binds a variable in the innermost scope. -/
def define (x : String) (v : Value) : Recorded Unit := do
  ofEval (Eval.define x v)
  mark (.bound x v)

/-- Gives a variable that exists a new value. -/
def assign (x : String) (v : Value) : Recorded Unit := do
  ofEval (Eval.assign x v)
  mark (.assigned x v)

/-- Makes the value of a function that is declared, and binds it. -/
def declare (name : String) (params : List String) (body : Block) : Recorded Unit := do
  let closure ← ofEval Eval.capture
  mark (.declared (.user name params body closure))
  define name (.func (.user name params body closure))

/-- Opens a layer. -/
def enter (l : Layer) : Recorded Unit := do
  ofEval (Eval.enter l.push)
  mark (.opened l)

/-- Closes the innermost layer. -/
def leave (l : Layer) : Recorded Unit := do
  ofEval Eval.leave
  mark (.closed l)

/-- Runs `act` in one more layer, and closes that layer again, however `act` ends. -/
def within {α : Type} (layer : Env → Layer) (act : Recorded α) : Recorded α := fun r =>
  bracket (enter (layer r.world.env)) (leave (layer r.world.env)) act r

end Recorded

/-- The operations of evaluation, with a record of what happens to the environment. -/
def Machine.record (tracing : Bool) : Machine Recorded where
  tooDeep := throw .tooDeep
  exhausted := throw .exhausted
  raise f := Recorded.ofEval (Eval.raise f)
  ask _ result := Recorded.lift result
  give := pure
  lookup x := Recorded.ofEval (Eval.lookup x)
  define := Recorded.define
  assign := Recorded.assign
  declare := Recorded.declare
  block := Recorded.within Layer.forBlock
  parameters := Recorded.within Layer.forParameters
  captured f closure := Recorded.within fun _ => .call f closure
  print v := Recorded.ofEval (Eval.print v)
  note f args := Recorded.ofEval (Eval.noteWhere tracing f args)

section

variable (limits : Limits) (tracing : Bool)

/-- Calls a function and records the call. -/
def Recorded.call : Calling Recorded :=
  (Machine.record tracing).call (Machine.record tracing).invoke limits.rounds limits.calls

/-- The value of an expression, recorded. -/
def Expr.record (e : Expr) : Recorded Value :=
  e.on (.record tracing) (Recorded.call limits tracing)

/-- Runs a statement and records the run. -/
def Stmt.record (s : Stmt) : Recorded Flow :=
  s.on (.record tracing) (Recorded.call limits tracing) limits.rounds

/-- Runs a block in a scope of its own and records the run. -/
def Block.record (body : Block) : Recorded Flow :=
  Recorded.within Layer.forBlock
    (Stmt.allOn (.record tracing) (Recorded.call limits tracing) limits.rounds .next body)

/-- Runs a program in the scope that is innermost and records the run. -/
def Program.record (p : Program) : Recorded Flow := p.on (.record tracing) limits

end

/-- A world in which nothing has run yet. -/
def World.start : World := ⟨.initial, "", #[]⟩

/-- A run in which nothing has happened yet. -/
def Run.start : Run := ⟨.start, []⟩

namespace Source

/-- A unit of source text, with what is to be shown besides what it prints. -/
structure Job where
  flags : Flags
  source : String

/-- The stages of a unit before it runs. -/
def prepare (job : Job) : Stage Program := do
  let t ← lift .syntaxError (Tree.ofSource job.source)
  showTree job.flags t
  let p ← lift .defect t.toProgram
  noteProgram job.flags p
  showDump job.flags p
  return p

/-- The world after units were run one after the other, each whatever became of those before. -/
def execAll (limits : Limits) : List Job → World → World
  | [], w => w
  | job :: jobs, w => execAll limits jobs (endState (exec limits job.flags job.source w))

/-- As a stage, a step ends in the world in which it ends. -/
theorem endState_run {α : Type} (act : Eval α) (w : World) :
    endState (run act w) = endState (act w) := by
  rw [run]
  cases act w <;> rfl

/-- Runs a unit and records the run. -/
def record (limits : Limits) (job : Job) (r : Run) : EStateM.Result Failure Run Flow :=
  match prepare job r.world with
  | .error failure w => .error failure ⟨w, r.past⟩
  | .ok p w =>
    match p.record limits job.flags.tracing ⟨w, r.past⟩ with
    | .ok flow r => .ok flow r
    | .error s r => .error (.stopped s) r

/-- The recorded run of units one after the other. -/
def recordAll (limits : Limits) : List Job → Run → Run
  | [], r => r
  | job :: jobs, r => recordAll limits jobs (endState (record limits job r))

end Source

end Lox
