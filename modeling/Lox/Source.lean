import Lox.Eval
import Lox.Syntax.Dump
import Lox.Syntax.OfTree
import Lox.Tree.Outline

/-!
# Running source text

Takes one unit of source text through all stages: its tree, its program, its run. What a failed
unit printed and changed before it failed stays.
-/

namespace Lox

/-- What is shown besides what programs print. Models `Config`. -/
structure Flags where
  /-- The parse tree of every unit. -/
  tree : Bool := false
  /-- The dump of every unit. -/
  dump : Bool := false
  /-- Notes on the course of the run. -/
  tracing : Bool := false
  deriving DecidableEq, Repr

/-- Why a unit of source text fails. -/
inductive Failure where
  | syntaxError (e : SyntaxError)
  | defect (d : Defect)
  | stopped (s : Stop)

namespace Source

/-- A stage of the run of a unit. -/
abbrev Stage := EStateM Failure World

/-- A stage that needs no state. -/
def lift {ε α : Type} (wrap : ε → Failure) : Except ε α → Stage α
  | .ok a => pure a
  | .error e => throw (wrap e)

/-- A stage that is a step of the running program. -/
def run {α : Type} (act : Eval α) : Stage α := fun w =>
  match act w with
  | .ok a w => .ok a w
  | .error s w => .error (.stopped s) w

/-- The program that a source text is. -/
def program (source : String) : Except Failure Program :=
  match Tree.ofSource source with
  | .error e => .error (.syntaxError e)
  | .ok t =>
    match t.toProgram with
    | .error d => .error (.defect d)
    | .ok p => .ok p

/-- Shows the parse tree of a unit. -/
def showTree (flags : Flags) (t : Tree) : Stage Unit :=
  if flags.tree then run (Eval.write (t.outline ++ "\n")) else pure ()

/-- Notes that a unit has become a program. -/
def noteProgram (flags : Flags) (p : Program) : Stage Unit :=
  if flags.tracing then
    run (Eval.note ("built program with " ++ toString p.length ++ " declaration(s)"))
  else pure ()

/-- Shows the dump of a unit. -/
def showDump (flags : Flags) (p : Program) : Stage Unit :=
  if flags.dump then run (Eval.write p.dump) else pure ()

/-- Runs a unit of source text. Models `run`. -/
def exec (limits : Limits) (flags : Flags) (source : String) : Stage Flow := do
  let t ← lift .syntaxError (Tree.ofSource source)
  showTree flags t
  let p ← lift .defect t.toProgram
  noteProgram flags p
  showDump flags p
  run (p.exec limits flags.tracing)

end Source

end Lox
