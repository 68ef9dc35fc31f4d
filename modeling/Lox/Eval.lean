import Lox.Env
import Lox.Value.Operate

/-!
# Evaluation

Runs programs. An expression has a value; a statement ends with a `Flow`, which carries a `return`
outward to the call that it ends. Every scope that is entered is left again, however its statements
end. Function bodies are run by a function in the `Context`, which allows one call less inside the
body, so that evaluation is structural in the syntax and in the number of calls that may still be
nested.
-/

namespace Lox

/-- The state of a running program: its environment, what it has printed, and what was noted about
its calls. -/
structure World where
  env : Env
  printed : String
  trace : Array String

/-- Why a program stops before its end. -/
inductive Stop where
  | fault (f : Fault)
  /-- An integer is too long to be written out. -/
  | unwritable
  /-- Too many calls are nested. -/
  | tooDeep
  /-- A loop has gone through all rounds that it is allowed. -/
  | exhausted

/-- How a statement ends. Models `Output`. -/
inductive Flow where
  | next
  | value (v : Value)
  | returned (v : Value)

/-- The value of a call whose body ended like this: that of a `return`, or of the last statement if
it has one. The end of `Interpreter.visit_func_call`. -/
def Flow.callValue : Flow → Value
  | value v | returned v => v
  | next => .unit

/-- A step of a running program. -/
abbrev Eval := EStateM Stop World

/-- How far a program may go: calls inside one another, and rounds of one loop. -/
structure Limits where
  calls : Nat
  rounds : Nat
  deriving DecidableEq, Repr

/-- Several hundred calls may be nested, and no loop that ends in a lifetime uses its rounds up. -/
def Limits.standard : Limits := ⟨1000, Nat.pow 2 62⟩

/-- What evaluation takes from its surroundings. -/
structure Context where
  /-- Runs the body of a function. -/
  enter : Block → Eval Flow
  rounds : Nat
  /-- Whether calls are noted. -/
  tracing : Bool

namespace Eval

/-- Stops with a fault, or for want of a message if it cannot be written out. -/
def raise {α : Type} (f : Fault) : Eval α :=
  throw (if f.isWritable then .fault f else .unwritable)

/-- The result of an operation on values. -/
def lift {α : Type} : Except Fault α → Eval α
  | .ok a => pure a
  | .error f => raise f

/-- The value of a variable. Models `Environment.get` with its `UndefinedVariable`. -/
def lookup (x : String) : Eval Value := fun w =>
  match w.env.get? x with
  | some v => .ok v w
  | none => raise (.undefinedVariable x) w

/-- Binds a variable in the innermost scope. -/
def define (x : String) (v : Value) : Eval Unit := fun ⟨env, printed, trace⟩ =>
  .ok () ⟨env.define x v, printed, trace⟩

/-- Gives a variable that exists a new value. Models `Environment.set` with its
`UndefinedVariable`. -/
def assign (x : String) (v : Value) : Eval Unit := fun ⟨env, printed, trace⟩ =>
  match env.owner? x with
  | some id => .ok () ⟨env.putIn id x v, printed, trace⟩
  | none => raise (.undefinedVariable x) ⟨env, printed, trace⟩

/-- Binds parameters to arguments, one after the other. Part of `UserFn.call`. -/
def defineAll : List String → List Value → Eval Unit
  | x :: xs, v :: vs => do
    define x v
    defineAll xs vs
  | _, _ => pure ()

/-- Prints text. -/
def write (text : String) : Eval Unit := fun ⟨env, printed, trace⟩ =>
  .ok () ⟨env, printed ++ text, trace⟩

/-- Prints a value on a line of its own. Part of `Interpreter.visit_stmt`. -/
def print (v : Value) : Eval Unit :=
  match v.text? with
  | some text => write (text ++ "\n")
  | none => throw .unwritable

/-- Notes a line. -/
def note (line : String) : Eval Unit := fun ⟨env, printed, trace⟩ =>
  .ok () ⟨env, printed, trace.push line⟩

/-- Copies the innermost scope for a function that is declared in it. Models `UserFn.with_closure`
of `Environment.snapshot`. -/
def capture : Eval ScopeId := fun ⟨env, printed, trace⟩ =>
  match env.snapshot with
  | (id, env) => .ok id ⟨env, printed, trace⟩

/-- Lays a scope on the stack. -/
def enter (push : Env → Env) : Eval Unit := fun ⟨env, printed, trace⟩ =>
  .ok () ⟨push env, printed, trace⟩

/-- Takes the innermost scope from the stack. Models `Environment.pop_scope` with its error. -/
def leave : Eval Unit := fun ⟨env, printed, trace⟩ =>
  match env.pop? with
  | some (_, env) => .ok () ⟨env, printed, trace⟩
  | none => raise .lastScope ⟨env, printed, trace⟩

/-- Runs `act` with one more scope on the stack, and takes that scope away again, however `act`
ends. The `try` of `Interpreter.visit_block` and of `UserFn.call`. -/
def within {α : Type} (push : Env → Env) (act : Eval α) : Eval α := fun w =>
  match (do enter push; act : Eval α) w with
  | .ok a w => (do leave; pure a : Eval α) w
  | .error s w => (do leave; throw s : Eval α) w

/-- Repeats `body` while `test` holds, for at most the given number of rounds. The loop ends the way
its last round does. The loop of `Interpreter.visit_while`. -/
def repeatWhile (test : Eval Bool) (body : Eval Flow) : (rounds : Nat) → Flow → Eval Flow
  | 0, _ => throw .exhausted
  | rounds + 1, last => do
    if ← test then
      match ← body with
      | .returned v => pure (.returned v)
      | flow => repeatWhile test body rounds flow
    else pure last

/-- The texts of arguments, as far as all of them can be written out. -/
def texts : List Value → Option (List String)
  | [] => some []
  | v :: vs =>
    match v.text?, texts vs with
    | some s, some ss => some (s :: ss)
    | _, _ => none

/-- Notes a call. -/
def noteCall (f : Function) (args : List Value) : Eval Unit :=
  match texts args with
  | some ss => note ("call " ++ f.name ++ "(" ++ String.intercalate ", " ss ++ ")")
  | none => throw .unwritable

/-- Notes a call where calls are noted. The beginning of `Interpreter.visit_func_call`. -/
def traceCall (ctx : Context) (f : Function) (args : List Value) : Eval Unit :=
  if ctx.tracing then noteCall f args else pure ()

/-- Stops unless there is exactly one argument for each parameter. Models `LoxFn.check_arity`. -/
def checkArity (f : Function) (args : List Value) : Eval Unit :=
  if args.length = f.arity then pure () else raise (.wrongArity f.arity args.length)

/-- The value of a function for as many arguments as it has parameters. A body runs in a scope for
the parameters, on top of the scope of the captured variables. Models `UserFn.call` and
`BuiltinFn.call` after `LoxFn.check_arity`. -/
def invoke (ctx : Context) : Function → List Value → Eval Value
  | .builtin fn, args => lift (fn.apply args)
  | .user _ params body closure, args => do
    let flow ← within (Env.pushShared closure) (within Env.push do
      defineAll params args
      ctx.enter body)
    pure flow.callValue

/-- Calls a function. Models `Interpreter.visit_func_call`. -/
def apply (ctx : Context) (f : Function) (args : List Value) : Eval Value := do
  traceCall ctx f args
  checkArity f args
  invoke ctx f args

end Eval

open Eval in
mutual

/-- The value of an expression. Models `Interpreter.visit_expr`, `Interpreter.visit_obj` and
`Interpreter._binop`. -/
def Expr.eval (ctx : Context) : Expr → Eval Value
  | .literal l => pure l.value
  | .name x => lookup x
  | .unary op e => do
    let v ← e.eval ctx
    lift (v.unary op)
  | .binary .and a b => do
    let lhs ← a.eval ctx
    if ← lift lhs.truth then
      let rhs ← b.eval ctx
      let holds ← lift rhs.truth
      pure (.bool holds)
    else pure (.bool false)
  | .binary .or a b => do
    let lhs ← a.eval ctx
    if ← lift lhs.truth then pure (.bool true)
    else
      let rhs ← b.eval ctx
      let holds ← lift rhs.truth
      pure (.bool holds)
  | .binary op a b => do
    let lhs ← a.eval ctx
    let rhs ← b.eval ctx
    lift (Value.binary op lhs rhs)
  | .access _ _ => raise (.unsupportedOperation .memberAccess)
  | .assign target e => do
    let v ← e.eval ctx
    match target with
    | .name x =>
      Eval.assign x v
      pure v
    | _ => raise (.unsupportedOperation .assignTarget)
  | .call callee args => do
    let v ← lookup callee
    let f ← lift v.function
    let vs ← Expr.evalAll ctx args
    apply ctx f vs
  | .hole => raise .expectedValue
termination_by structural e => e

/-- The values of expressions, from left to right. Part of `Interpreter.visit_expr`. -/
def Expr.evalAll (ctx : Context) : List Expr → Eval (List Value)
  | [] => pure []
  | e :: es => do
    let v ← e.eval ctx
    let vs ← Expr.evalAll ctx es
    pure (v :: vs)
termination_by structural es => es

end

open Eval in
mutual

/-- Runs a statement. Models `Interpreter.visit_stmt`, `Interpreter.visit_var_decl`,
`Interpreter.visit_if`, `Interpreter.visit_while` and `Interpreter.visit_func`. -/
def Stmt.exec (ctx : Context) : Stmt → Eval Flow
  | .expr e => do
    let v ← e.eval ctx
    pure (.value v)
  | .print e => do
    let v ← e.eval ctx
    Eval.print v
    pure .next
  | .block body => within Env.push (Stmt.execAll ctx .next body)
  | .var x none => do
    define x .unit
    pure .next
  | .var x (some e) => do
    let v ← e.eval ctx
    define x v
    pure .next
  | .branch cond yes no => do
    let v ← cond.eval ctx
    if ← lift v.truth then within Env.push (Stmt.execAll ctx .next yes)
    else within Env.push (Stmt.execAll ctx .next no)
  | .loop cond body =>
    repeatWhile (do let v ← cond.eval ctx; lift v.truth)
      (within Env.push (Stmt.execAll ctx .next body)) ctx.rounds .next
  | .func name params body => do
    let closure ← capture
    define name (.func (.user name params body closure))
    pure .next
  | .builtin name fn => do
    define name (.func (.builtin fn))
    pure .next
  | .ret none => pure (.returned .unit)
  | .ret (some e) => do
    let v ← e.eval ctx
    pure (.returned v)
termination_by structural s => s

/-- Runs statements one after the other until one returns; `last` is how the one before them ended.
Models `Interpreter._run`. -/
def Stmt.execAll (ctx : Context) (last : Flow) : List Stmt → Eval Flow
  | [] => pure last
  | s :: ss => do
    match ← s.exec ctx with
    | .returned v => pure (.returned v)
    | flow => Stmt.execAll ctx flow ss
termination_by structural ss => ss

end

/-- Runs a block in a scope of its own. Models `Interpreter.visit_block`. -/
def Block.exec (ctx : Context) (body : Block) : Eval Flow :=
  Eval.within Env.push (Stmt.execAll ctx .next body)

/-- The context in which `calls` more calls may be nested. -/
def Context.ofCalls (rounds : Nat) (tracing : Bool) : (calls : Nat) → Context
  | 0 => ⟨fun _ => throw .tooDeep, rounds, tracing⟩
  | calls + 1 => ⟨Block.exec (ofCalls rounds tracing calls), rounds, tracing⟩

/-- Runs a program in the scope that is innermost. Models `Interpreter.visit_program`. -/
def Program.exec (limits : Limits) (tracing : Bool) (p : Program) : Eval Flow :=
  Stmt.execAll (Context.ofCalls limits.rounds tracing limits.calls) .next p

end Lox
