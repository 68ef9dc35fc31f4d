import Lox.Value

/-!
# Complete programs

Programs in which every expression is there. A tree of statements and expressions can have holes
where an expression should be; the program of a source text has none, and neither has the body of a
function that it declares.
-/

namespace Lox

namespace Expr

mutual

/-- Whether an expression is there, with all its parts. -/
def Complete : Expr → Prop
  | literal _ | name _ => True
  | unary _ e => e.Complete
  | binary _ a b | access a b | assign a b => a.Complete ∧ b.Complete
  | call _ args => AllComplete args
  | hole => False
termination_by structural e => e

/-- Whether expressions are there, with all their parts. -/
def AllComplete : List Expr → Prop
  | [] => True
  | e :: es => e.Complete ∧ AllComplete es
termination_by structural es => es

end

/-- An infix operator between complete operands makes a complete expression. -/
theorem complete_infixed {a b : Expr} (op : Infix) (ha : a.Complete) (hb : b.Complete) :
    (infixed a op b).Complete := by
  cases op with
  | binary op => exact ⟨ha, hb⟩
  | access => exact ⟨ha, hb⟩
  | assign => exact ⟨ha, hb⟩

end Expr

namespace Stmt

mutual

/-- Whether all expressions of a statement are there. -/
def Complete : Stmt → Prop
  | expr e | print e => e.Complete
  | block body => AllComplete body
  | var _ none => True
  | var _ (some e) => e.Complete
  | branch cond yes no => cond.Complete ∧ AllComplete yes ∧ AllComplete no
  | loop cond body => cond.Complete ∧ AllComplete body
  | func _ _ body => AllComplete body
  | builtin _ _ => True
  | ret none => True
  | ret (some e) => e.Complete
termination_by structural s => s

/-- Whether all expressions of statements are there. -/
def AllComplete : List Stmt → Prop
  | [] => True
  | s :: ss => s.Complete ∧ AllComplete ss
termination_by structural ss => ss

end

/-- A declaration is complete if its initial value is, if it has one. -/
theorem complete_var {x : String} {init : Option Expr} (h : ∀ e ∈ init, e.Complete) :
    (var x init).Complete := by
  cases init with
  | none => trivial
  | some e => exact h e rfl

/-- A `return` is complete if its value is, if it has one. -/
theorem complete_ret {value : Option Expr} (h : ∀ e ∈ value, e.Complete) :
    (ret value).Complete := by
  cases value with
  | none => trivial
  | some e => exact h e rfl

/-- Statements are complete together if they are in two parts. -/
theorem allComplete_append {ss rest : List Stmt} (hss : AllComplete ss)
    (hrest : AllComplete rest) : AllComplete (ss ++ rest) := by
  induction ss with
  | nil => exact hrest
  | cons s ss ih => exact ⟨hss.1, ih hss.2⟩

/-- Expressions are complete as statements. -/
theorem allComplete_map_expr {es : List Expr} (h : Expr.AllComplete es) :
    AllComplete (es.map expr) := by
  induction es with
  | nil => trivial
  | cons e es ih => exact ⟨h.1, ih h.2⟩

/-- What a `for` statement stands for is complete if its parts are. -/
theorem complete_for {inits body : List Stmt} {cond : Option Expr} {steps : List Expr}
    (hinits : AllComplete inits) (hcond : ∀ e ∈ cond, e.Complete) (hbody : AllComplete body)
    (hsteps : Expr.AllComplete steps) :
    (block (inits ++ [loop (cond.getD (.literal (.bool true))) (body ++ steps.map expr)])).Complete
    := by
  have htest : (cond.getD (.literal (.bool true))).Complete := by
    cases cond with
    | none => trivial
    | some e => exact hcond e rfl
  exact allComplete_append hinits
    ⟨⟨htest, allComplete_append hbody (allComplete_map_expr hsteps)⟩, trivial⟩

end Stmt

/-- Whether all expressions of a program are there. -/
def Program.Complete (p : Program) : Prop := Stmt.AllComplete p

/-- Whether all expressions of a function's body are there. -/
def Function.Complete : Function → Prop
  | user _ _ body _ => Stmt.AllComplete body
  | builtin _ => True

/-- Whether a value is complete, which a function can fail to be. -/
def Value.Complete : Value → Prop
  | func f => f.Complete
  | _ => True

end Lox
