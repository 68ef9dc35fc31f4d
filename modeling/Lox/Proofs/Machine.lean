import Lox.Eval

/-!
# Machines

All that a program does it does by a few operations: it works on values, looks names up, binds and
assigns them, declares functions, enters scopes, prints, notes calls and stops. A machine is a way
to carry these operations out in some monad. The constructs of the language are put together from
them here once; evaluation is what programs do on one machine, and what relates the operations of
two machines relates whole programs on them.
-/

namespace Lox

/-- What a running program does. -/
inductive Act where
  /-- Values are handed to an operator. -/
  | operands (vs : List Value)
  /-- The truth of a value is asked for. -/
  | condition (v : Value)
  /-- The value of a name is to be called. -/
  | callee (x : String) (v : Value)
  /-- Arguments are passed to a function. -/
  | arguments (f : Function) (args : List Value)
  /-- A built-in function works on its arguments. -/
  | builtin (fn : Builtin) (args : List Value)
  /-- An expression, or a `return` without one, turns out to have the value. -/
  | outcome (v : Value)
  /-- A name was bound to a value, or assigned one. -/
  | stored (x : String) (v : Value)
  /-- A scope was copied, entered or left. -/
  | scopes

/-- What it means to call a function. -/
abbrev Calling (M : Type → Type) := Function → List Value → M Value

/-- The operations of a running program. -/
structure Machine (M : Type → Type) where
  /-- Stops because too many calls are nested. -/
  tooDeep : M Flow
  /-- Stops because a loop has gone through all its rounds. -/
  exhausted : M Flow
  raise {α : Type} : Fault → M α
  /-- The result of an operation on values, and what is done there with them. -/
  ask {α : Type} : Act → Except Fault α → M α
  /-- Gives a value that an expression turns out to have. -/
  give : Value → M Value
  lookup : String → M Value
  define : String → Value → M Unit
  assign : String → Value → M Unit
  /-- Makes the value of a function that is declared, and binds it. -/
  declare : String → List String → Block → M Unit
  /-- Runs something in a scope of its own. -/
  block : M Flow → M Flow
  /-- Runs something in a scope for parameters. -/
  parameters : M Flow → M Flow
  /-- Runs something in the scope that a function has captured. -/
  captured : Function → ScopeId → M Flow → M Flow
  print : Value → M Unit
  /-- Takes note of a call before it is begun. -/
  note : Function → List Value → M Unit

namespace Machine

variable {M : Type → Type} [Monad M] (m : Machine M)

/-- Whether a value holds. -/
def truth (v : Value) : M Bool := m.ask (.condition v) v.truth

/-- Binds parameters to arguments, one after the other. -/
def defineAll : List String → List Value → M Unit
  | x :: xs, v :: vs => do
    m.define x v
    defineAll xs vs
  | _, _ => pure ()

/-- Repeats `body` while `test` holds, for at most the given number of rounds. -/
def repeatWhile (test : M Bool) (body : M Flow) : (rounds : Nat) → Flow → M Flow
  | 0, _ => m.exhausted
  | rounds + 1, last => do
    if ← test then
      match ← body with
      | .returned v => pure (.returned v)
      | flow => repeatWhile test body rounds flow
    else pure last

/-- Calls a function that is run by `invoke` for as many arguments as it has parameters. -/
def calling (invoke : Calling M) : Calling M := fun f args => do
  m.note f args
  if args.length = f.arity then invoke f args
  else m.raise (.wrongArity f.arity args.length)

/-- The value of a function for as many arguments as it has parameters. A body runs in a scope for
the parameters, on top of the scope of the captured variables. -/
def invoke (enter : Block → M Flow) : Calling M
  | .builtin fn, args => do
    let v ← m.ask (.builtin fn args) (fn.apply args)
    m.give v
  | .user name params body closure, args => do
    let flow ← m.captured (.user name params body closure) closure (m.parameters do
      m.defineAll params args
      enter body)
    m.give flow.callValue

end Machine

section

variable {M : Type → Type} [Monad M]

mutual

/-- The value of an expression on a machine. -/
def Expr.on (m : Machine M) (call : Calling M) : Expr → M Value
  | .literal l => m.give l.value
  | .name x => do
    let v ← m.lookup x
    m.give v
  | .unary op e => do
    let v ← e.on m call
    let u ← m.ask (.operands [v]) (v.unary op)
    m.give u
  | .binary .and a b => do
    let lhs ← a.on m call
    if ← m.truth lhs then
      let rhs ← b.on m call
      let holds ← m.truth rhs
      m.give (.bool holds)
    else m.give (.bool false)
  | .binary .or a b => do
    let lhs ← a.on m call
    if ← m.truth lhs then m.give (.bool true)
    else
      let rhs ← b.on m call
      let holds ← m.truth rhs
      m.give (.bool holds)
  | .binary op a b => do
    let lhs ← a.on m call
    let rhs ← b.on m call
    let u ← m.ask (.operands [lhs, rhs]) (Value.binary op lhs rhs)
    m.give u
  | .access _ _ => m.raise (.unsupportedOperation .memberAccess)
  | .assign target e => do
    let v ← e.on m call
    match target with
    | .name x =>
      m.assign x v
      m.give v
    | _ => m.raise (.unsupportedOperation .assignTarget)
  | .call callee args => do
    let v ← m.lookup callee
    let f ← m.ask (.callee callee v) v.function
    let vs ← Expr.allOn m call args
    call f vs
  | .hole => m.raise .expectedValue
termination_by structural e => e

/-- The values of expressions, from left to right. -/
def Expr.allOn (m : Machine M) (call : Calling M) : List Expr → M (List Value)
  | [] => pure []
  | e :: es => do
    let v ← e.on m call
    let vs ← Expr.allOn m call es
    pure (v :: vs)
termination_by structural es => es

end

mutual

/-- Runs a statement on a machine; no loop goes round more often than `rounds`. -/
def Stmt.on (m : Machine M) (call : Calling M) (rounds : Nat) : Stmt → M Flow
  | .expr e => do
    let v ← e.on m call
    pure (.value v)
  | .print e => do
    let v ← e.on m call
    m.print v
    pure .next
  | .block body => m.block (Stmt.allOn m call rounds .next body)
  | .var x none => do
    m.define x .unit
    pure .next
  | .var x (some e) => do
    let v ← e.on m call
    m.define x v
    pure .next
  | .branch cond yes no => do
    let v ← cond.on m call
    if ← m.truth v then m.block (Stmt.allOn m call rounds .next yes)
    else m.block (Stmt.allOn m call rounds .next no)
  | .loop cond body =>
    m.repeatWhile (do let v ← cond.on m call; m.truth v)
      (m.block (Stmt.allOn m call rounds .next body)) rounds .next
  | .func name params body => do
    m.declare name params body
    pure .next
  | .builtin name fn => do
    m.define name (.func (.builtin fn))
    pure .next
  | .ret none => do
    let v ← m.give .unit
    pure (.returned v)
  | .ret (some e) => do
    let v ← e.on m call
    pure (.returned v)
termination_by structural s => s

/-- Runs statements one after the other until one returns. -/
def Stmt.allOn (m : Machine M) (call : Calling M) (rounds : Nat) (last : Flow) :
    List Stmt → M Flow
  | [] => pure last
  | s :: ss => do
    match ← s.on m call rounds with
    | .returned v => pure (.returned v)
    | flow => Stmt.allOn m call rounds flow ss
termination_by structural ss => ss

end

namespace Machine

variable (m : Machine M) (invoke : (Block → M Flow) → Calling M)

/-- Runs the body of a function in which `calls` more calls may be nested, where functions whose
bodies are run by `enter` are run by `invoke enter`. -/
def enter (rounds : Nat) : (calls : Nat) → Block → M Flow
  | 0, _ => m.tooDeep
  | calls + 1, body =>
    m.block (Stmt.allOn m (m.calling (invoke (enter rounds calls))) rounds .next body)

/-- Calls a function where `calls` calls may be nested. -/
def call (rounds calls : Nat) : Calling M := m.calling (invoke (m.enter invoke rounds calls))

end Machine

/-- Runs a program on a machine, where functions are run by `invoke`. -/
def Program.onBy (m : Machine M) (invoke : (Block → M Flow) → Calling M) (limits : Limits)
    (p : Program) : M Flow :=
  Stmt.allOn m (m.call invoke limits.rounds limits.calls) limits.rounds .next p

/-- Runs a program on a machine. -/
def Program.on (m : Machine M) (limits : Limits) (p : Program) : M Flow := p.onBy m m.invoke limits

end

/-! ### The machine of evaluation -/

/-- Notes a call where calls are noted. -/
def Eval.noteWhere (tracing : Bool) (f : Function) (args : List Value) : Eval Unit :=
  if tracing then noteCall f args else pure ()

/-- The operations of evaluation. -/
def Machine.eval (tracing : Bool) : Machine Eval where
  tooDeep := throw .tooDeep
  exhausted := throw .exhausted
  raise := Eval.raise
  ask _ result := Eval.lift result
  give := pure
  lookup := Eval.lookup
  define := Eval.define
  assign := Eval.assign
  declare name params body := do
    let closure ← Eval.capture
    Eval.define name (.func (.user name params body closure))
  block := Eval.within Env.push
  parameters := Eval.within Env.push
  captured _ closure := Eval.within (Env.pushShared closure)
  print := Eval.print
  note := Eval.noteWhere tracing

namespace Machine

variable {tracing : Bool}

/-- Parameters are bound as in evaluation. -/
theorem defineAll_eval (xs : List String) (vs : List Value) :
    (eval tracing).defineAll xs vs = Eval.defineAll xs vs := by
  induction xs generalizing vs with
  | nil => rfl
  | cons x xs ih =>
    cases vs with
    | nil => rfl
    | cons v vs =>
      rw [defineAll, Eval.defineAll, ih]
      rfl

/-- Loops go round as in evaluation. -/
theorem repeatWhile_eval (test : Eval Bool) (body : Eval Flow) (rounds : Nat) (last : Flow) :
    (eval tracing).repeatWhile test body rounds last = Eval.repeatWhile test body rounds last := by
  induction rounds generalizing last with
  | zero => rfl
  | succ rounds ih =>
    rw [repeatWhile, Eval.repeatWhile]
    congr 1
    funext holds
    cases holds with
    | false => rfl
    | true =>
      show body >>= _ = body >>= _
      congr 1
      funext flow
      cases flow with
      | returned v => rfl
      | next | value => exact ih _

/-- Functions are run as in evaluation, where their bodies are. -/
theorem invoke_eval (ctx : Context) (f : Function) (args : List Value) :
    (eval tracing).invoke ctx.enter f args = Eval.invoke ctx f args := by
  cases f with
  | builtin fn => exact bind_pure _
  | user name params body closure =>
    simp only [invoke, Eval.invoke, defineAll_eval]
    rfl

/-- Functions are called as in evaluation. -/
theorem apply_eval (ctx : Context) :
    (eval ctx.tracing).calling ((eval ctx.tracing).invoke ctx.enter) = Eval.apply ctx := by
  funext f args
  rw [calling, Eval.apply]
  show Eval.traceCall ctx f args >>= _ = Eval.traceCall ctx f args >>= _
  congr 1
  funext u
  rw [Eval.checkArity]
  split
  · rw [pure_bind, invoke_eval]
  · rfl

end Machine

mutual

/-- Expressions have the values that evaluation gives them. -/
theorem Expr.on_eval (tracing : Bool) (ctx : Context) (e : Expr) :
    e.on (.eval tracing) (Eval.apply ctx) = e.eval ctx := by
  cases e with
  | literal | access | hole => rfl
  | name x => exact bind_pure _
  | unary op e =>
    rw [Expr.on, Expr.eval, Expr.on_eval tracing ctx e]
    congr 1
    funext v
    exact bind_pure _
  | binary op a b =>
    cases op with
    | and | or =>
      rw [Expr.on, Expr.eval, Expr.on_eval tracing ctx a, Expr.on_eval tracing ctx b]
      rfl
    | _ =>
      simp only [Expr.on, Expr.eval, Expr.on_eval tracing ctx a, Expr.on_eval tracing ctx b]
      congr 1
      funext lhs
      congr 1
      funext rhs
      exact bind_pure _
  | assign target e =>
    rw [Expr.on, Expr.eval, Expr.on_eval tracing ctx e]
    rfl
  | call callee args =>
    rw [Expr.on, Expr.eval, Expr.allOn_eval tracing ctx args]
    rfl
termination_by structural e

/-- So have lists of them. -/
theorem Expr.allOn_eval (tracing : Bool) (ctx : Context) (es : List Expr) :
    Expr.allOn (.eval tracing) (Eval.apply ctx) es = Expr.evalAll ctx es := by
  cases es with
  | nil => rfl
  | cons e es =>
    rw [Expr.allOn, Expr.evalAll, Expr.on_eval tracing ctx e, Expr.allOn_eval tracing ctx es]
termination_by structural es

end

mutual

/-- Statements do what they do in evaluation. -/
theorem Stmt.on_eval (tracing : Bool) (ctx : Context) (s : Stmt) :
    s.on (.eval tracing) (Eval.apply ctx) ctx.rounds = s.exec ctx := by
  cases s with
  | expr e => rw [Stmt.on, Stmt.exec, Expr.on_eval tracing ctx e]
  | print e =>
    rw [Stmt.on, Stmt.exec, Expr.on_eval tracing ctx e]
    rfl
  | block body =>
    rw [Stmt.on, Stmt.exec, Stmt.allOn_eval tracing ctx .next body]
    rfl
  | var x init =>
    cases init with
    | none => rfl
    | some e =>
      rw [Stmt.on, Stmt.exec, Expr.on_eval tracing ctx e]
      rfl
  | branch cond yes no =>
    rw [Stmt.on, Stmt.exec, Expr.on_eval tracing ctx cond, Stmt.allOn_eval tracing ctx .next yes,
      Stmt.allOn_eval tracing ctx .next no]
    rfl
  | loop cond body =>
    rw [Stmt.on, Stmt.exec, Expr.on_eval tracing ctx cond, Stmt.allOn_eval tracing ctx .next body,
      Machine.repeatWhile_eval]
    rfl
  | func => exact bind_assoc _ _ _
  | builtin => rfl
  | ret e =>
    cases e with
    | none => rfl
    | some e => rw [Stmt.on, Stmt.exec, Expr.on_eval tracing ctx e]
termination_by structural s

/-- So do lists of them. -/
theorem Stmt.allOn_eval (tracing : Bool) (ctx : Context) (last : Flow) (ss : List Stmt) :
    Stmt.allOn (.eval tracing) (Eval.apply ctx) ctx.rounds last ss = Stmt.execAll ctx last ss := by
  cases ss with
  | nil => rfl
  | cons s ss =>
    rw [Stmt.allOn, Stmt.execAll, Stmt.on_eval tracing ctx s]
    congr 1
    funext flow
    cases flow with
    | returned v => rfl
    | next | value => exact Stmt.allOn_eval tracing ctx _ ss
termination_by structural ss

end

/-- Calls are noted at every depth, or at none. -/
theorem Context.tracing_ofCalls (rounds : Nat) (tracing : Bool) (calls : Nat) :
    (ofCalls rounds tracing calls).tracing = tracing := by
  cases calls <;> rfl

/-- Loops may go round as often at every depth of calls. -/
theorem Context.rounds_ofCalls (rounds : Nat) (tracing : Bool) (calls : Nat) :
    (ofCalls rounds tracing calls).rounds = rounds := by
  cases calls <;> rfl

namespace Machine

variable (rounds : Nat) (tracing : Bool) (calls : Nat)

/-- Where the bodies of functions are run as in evaluation, functions are called as there. -/
theorem calling_eval
    (h : (eval tracing).enter (eval tracing).invoke rounds calls =
      (Lox.Context.ofCalls rounds tracing calls).enter) :
    (eval tracing).call (eval tracing).invoke rounds calls =
      Eval.apply (.ofCalls rounds tracing calls) := by
  have happly := apply_eval (.ofCalls rounds tracing calls)
  rw [Context.tracing_ofCalls, ← h] at happly
  exact happly

/-- The bodies of functions are run as in evaluation, however many calls may be nested. -/
theorem enter_eval :
    (eval tracing).enter (eval tracing).invoke rounds calls =
      (Lox.Context.ofCalls rounds tracing calls).enter := by
  induction calls with
  | zero => rfl
  | succ calls ih =>
    funext body
    have hbody := Stmt.allOn_eval tracing (.ofCalls rounds tracing calls) .next body
    rw [Context.rounds_ofCalls, ← calling_eval rounds tracing calls ih] at hbody
    exact congrArg (Eval.within Env.push) hbody

/-- Functions are called as in evaluation, however many calls may be nested. -/
theorem call_eval :
    (eval tracing).call (eval tracing).invoke rounds calls =
      Eval.apply (.ofCalls rounds tracing calls) :=
  calling_eval rounds tracing calls (enter_eval rounds tracing calls)

end Machine

/-- Programs do on the machine of evaluation what they do when they are run. -/
theorem Program.on_eval (limits : Limits) (tracing : Bool) (p : Program) :
    p.on (.eval tracing) limits = p.exec limits tracing := by
  have hall := Stmt.allOn_eval tracing (.ofCalls limits.rounds tracing limits.calls) .next p
  rw [Context.rounds_ofCalls, ← Machine.call_eval] at hall
  exact hall

/-! ### Machines side by side -/

namespace Machine

/-- A relation between what can be done on two machines, which holds between their operations and is
kept when steps are put together. The scopes of calls are left out. -/
structure Simulation {M N : Type → Type} [Monad M] [Monad N] (m : Machine M) (n : Machine N) where
  rel : {α : Type} → M α → N α → Prop
  pure {α : Type} (a : α) : rel (Pure.pure a) (Pure.pure a)
  bind {α β : Type} {act : M α} {act' : N α} {next : α → M β} {next' : α → N β} :
    rel act act' → (∀ a, rel (next a) (next' a)) → rel (act >>= next) (act' >>= next')
  tooDeep : rel m.tooDeep n.tooDeep
  exhausted : rel m.exhausted n.exhausted
  raise {α : Type} (f : Fault) : rel (m.raise f : M α) (n.raise f)
  ask {α : Type} (act : Act) (result : Except Fault α) : rel (m.ask act result) (n.ask act result)
  give (v : Value) : rel (m.give v) (n.give v)
  lookup (x : String) : rel (m.lookup x) (n.lookup x)
  define (x : String) (v : Value) : rel (m.define x v) (n.define x v)
  assign (x : String) (v : Value) : rel (m.assign x v) (n.assign x v)
  declare (name : String) (params : List String) (body : Block) :
    rel (m.declare name params body) (n.declare name params body)
  block {act : M Flow} {act' : N Flow} : rel act act' → rel (m.block act) (n.block act')
  print (v : Value) : rel (m.print v) (n.print v)
  note (f : Function) (args : List Value) : rel (m.note f args) (n.note f args)

namespace Simulation

variable {M N : Type → Type} [Monad M] [Monad N] {m : Machine M} {n : Machine N}
  (sim : Simulation m n)

/-- Calls that are related. -/
def Calls (call : Calling M) (call' : Calling N) : Prop :=
  ∀ f args, sim.rel (call f args) (call' f args)

/-- A loop is related if its test and its body are. -/
theorem repeatWhile {test : M Bool} {test' : N Bool} {body : M Flow} {body' : N Flow}
    (ht : sim.rel test test') (hb : sim.rel body body') (rounds : Nat) (last : Flow) :
    sim.rel (m.repeatWhile test body rounds last) (n.repeatWhile test' body' rounds last) := by
  induction rounds generalizing last with
  | zero => exact sim.exhausted
  | succ rounds ih =>
    refine sim.bind ht fun holds => ?_
    cases holds with
    | false => exact sim.pure last
    | true =>
      refine sim.bind hb fun flow => ?_
      cases flow with
      | returned v => exact sim.pure _
      | next | value => exact ih _

section Syntax

variable {sim} {call : Calling M} {call' : Calling N}

mutual

/-- Evaluating an expression is related, one case for each construct. -/
theorem expr (h : sim.Calls call call') (e : Expr) : sim.rel (e.on m call) (e.on n call') := by
  cases e with
  | literal l => exact sim.give _
  | name x => exact sim.bind (sim.lookup x) sim.give
  | access | hole => exact sim.raise _
  | unary op e =>
    exact sim.bind (expr h e) fun _ => sim.bind (sim.ask _ _) sim.give
  | binary op a b =>
    have htest := sim.bind (expr h b) fun rhs =>
      sim.bind (sim.ask (.condition rhs) rhs.truth) fun holds => sim.give (.bool holds)
    cases op with
    | and =>
      refine sim.bind (expr h a) fun lhs => sim.bind (sim.ask _ _) fun holds => ?_
      cases holds with
      | false => exact sim.give _
      | true => exact htest
    | or =>
      refine sim.bind (expr h a) fun lhs => sim.bind (sim.ask _ _) fun holds => ?_
      cases holds with
      | false => exact htest
      | true => exact sim.give _
    | _ =>
      exact sim.bind (expr h a) fun _ => sim.bind (expr h b) fun _ =>
        sim.bind (sim.ask _ _) sim.give
  | assign target e =>
    refine sim.bind (expr h e) fun v => ?_
    cases target with
    | name x => exact sim.bind (sim.assign x v) fun _ => sim.give v
    | _ => exact sim.raise _
  | call callee args =>
    refine sim.bind (sim.lookup callee) fun v => sim.bind (sim.ask _ _) fun f => ?_
    exact sim.bind (exprs h args) fun vs => h f vs
termination_by structural e

/-- Evaluating expressions from left to right is related. -/
theorem exprs (h : sim.Calls call call') (es : List Expr) :
    sim.rel (Expr.allOn m call es) (Expr.allOn n call' es) := by
  cases es with
  | nil => exact sim.pure _
  | cons e es => exact sim.bind (expr h e) fun _ => sim.bind (exprs h es) fun _ => sim.pure _
termination_by structural es

end

mutual

/-- Running a statement is related, one case for each construct. -/
theorem stmt (h : sim.Calls call call') (rounds : Nat) (s : Stmt) :
    sim.rel (s.on m call rounds) (s.on n call' rounds) := by
  cases s with
  | expr e => exact sim.bind (expr h e) fun _ => sim.pure _
  | print e => exact sim.bind (expr h e) fun v => sim.bind (sim.print v) fun _ => sim.pure _
  | block body => exact sim.block (stmts h rounds .next body)
  | var x init =>
    cases init with
    | none => exact sim.bind (sim.define x _) fun _ => sim.pure _
    | some e => exact sim.bind (expr h e) fun v => sim.bind (sim.define x v) fun _ => sim.pure _
  | branch cond yes no =>
    refine sim.bind (expr h cond) fun v => sim.bind (sim.ask _ _) fun holds => ?_
    cases holds with
    | true => exact sim.block (stmts h rounds .next yes)
    | false => exact sim.block (stmts h rounds .next no)
  | loop cond body =>
    exact sim.repeatWhile (sim.bind (expr h cond) fun v => sim.ask (.condition v) v.truth)
      (sim.block (stmts h rounds .next body)) rounds .next
  | func name params body => exact sim.bind (sim.declare name params body) fun _ => sim.pure _
  | builtin name fn => exact sim.bind (sim.define name _) fun _ => sim.pure _
  | ret e =>
    cases e with
    | none => exact sim.bind (sim.give _) fun _ => sim.pure _
    | some e => exact sim.bind (expr h e) fun _ => sim.pure _
termination_by structural s

/-- Running statements one after the other is related. -/
theorem stmts (h : sim.Calls call call') (rounds : Nat) (last : Flow) (ss : List Stmt) :
    sim.rel (Stmt.allOn m call rounds last ss) (Stmt.allOn n call' rounds last ss) := by
  cases ss with
  | nil => exact sim.pure last
  | cons s ss =>
    refine sim.bind (stmt h rounds s) fun flow => ?_
    cases flow with
    | returned v => exact sim.pure _
    | next | value => exact stmts h rounds _ ss
termination_by structural ss

end

/-- A call is related if the function is run alike. -/
theorem calling {invoke : Calling M} {invoke' : Calling N}
    (h : ∀ f args, args.length = f.arity → sim.rel (invoke f args) (invoke' f args)) :
    sim.Calls (m.calling invoke) (n.calling invoke') := by
  intro f args
  refine sim.bind (sim.note f args) fun _ => ?_
  split
  · next hlength => exact h f args hlength
  · exact sim.raise _

end Syntax

/-- A simulation that goes along with the scopes of calls, too. -/
structure Scoped : Prop where
  parameters {act : M Flow} {act' : N Flow} :
    sim.rel act act' → sim.rel (m.parameters act) (n.parameters act')
  captured {act : M Flow} {act' : N Flow} (f : Function) (closure : ScopeId) :
    sim.rel act act' → sim.rel (m.captured f closure act) (n.captured f closure act')

/-- Binding parameters is related, as binding a name is. -/
theorem defineAll (xs : List String) (vs : List Value) :
    sim.rel (m.defineAll xs vs) (n.defineAll xs vs) := by
  induction xs generalizing vs with
  | nil => exact sim.pure ()
  | cons x xs ih =>
    cases vs with
    | nil => exact sim.pure ()
    | cons v vs => exact sim.bind (sim.define x v) fun _ => ih vs

namespace Scoped

variable {sim} (h : sim.Scoped)

include h

/-- Running a function is related, where running its body is. -/
theorem invoke {enter : Block → M Flow} {enter' : Block → N Flow}
    (henter : ∀ body, sim.rel (enter body) (enter' body)) (f : Function) (args : List Value) :
    sim.rel (m.invoke enter f args) (n.invoke enter' f args) := by
  cases f with
  | builtin fn => exact sim.bind (sim.ask _ _) sim.give
  | user name params body closure =>
    refine sim.bind (h.captured _ closure (h.parameters ?_)) fun flow => sim.give _
    exact sim.bind (sim.defineAll params args) fun _ => henter body

/-- Running the body of a function is related at every depth of calls. -/
theorem enter (rounds calls : Nat) (body : Block) :
    sim.rel (m.enter m.invoke rounds calls body) (n.enter n.invoke rounds calls body) := by
  induction calls generalizing body with
  | zero => exact sim.tooDeep
  | succ calls ih =>
    exact sim.block (stmts (calling fun f args _ => h.invoke ih f args) rounds .next body)

/-- Calls are related at every depth. -/
theorem calls (rounds depth : Nat) :
    sim.Calls (m.call m.invoke rounds depth) (n.call n.invoke rounds depth) :=
  calling fun f args _ => h.invoke (h.enter rounds depth) f args

/-- Whole programs are related on machines whose operations are. -/
theorem program (limits : Limits) (p : Program) : sim.rel (p.on m limits) (p.on n limits) :=
  stmts (h.calls _ _) _ .next p

end Scoped

end Simulation

end Machine

end Lox
