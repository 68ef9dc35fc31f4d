import Lox.Value.Operate

/-!
# What operations give

Operators and built-in functions give atoms, the values that do not refer to a scope, and they
never fail for want of a scope. So only look-ups and declarations bring functions into a run.
-/

namespace Lox

/-- Whether a value is of a sort without parts that live in scopes. -/
def Value.isAtom : Value → Bool
  | .int _ | .float _ | .str _ | .bool _ | .unit => true
  | .ident _ | .func _ => false

/-- Literals are atoms. -/
theorem Literal.isAtom_value (l : Literal) : l.value.isAtom = true := by
  cases l <;> rfl

namespace Value

/-- Prefix operators give atoms. -/
theorem isAtom_unary {op : UnaryOp} {v u : Value} (h : v.unary op = .ok u) : u.isAtom = true := by
  cases op <;> cases v <;> simp only [unary, Except.ok.injEq, reduceCtorEq] at h <;>
    subst h <;> rfl

private theorem isAtom_of_map {α : Type} {r : Except Fault α} {make : α → Value}
    (hmake : ∀ a, (make a).isAtom = true) {u : Value} (h : r.map make = .ok u) :
    u.isAtom = true := by
  cases r with
  | error f => simp [Except.map] at h
  | ok a =>
    simp only [Except.map, Except.ok.injEq] at h
    exact h ▸ hmake a

private theorem isAtom_binaryInt {op : BinaryOp} {a b : Int} {r : Except Fault Value} {u : Value}
    (h : binaryInt? op a b = some r) (hr : r = .ok u) : u.isAtom = true := by
  subst hr
  cases op <;> simp only [binaryInt?, Option.some.injEq, Except.ok.injEq, reduceCtorEq] at h
  case divide => exact isAtom_of_map (fun _ => rfl) h
  all_goals
    subst h
    rfl

private theorem isAtom_binaryFloat {op : BinaryOp} {a b : Float} {r : Except Fault Value}
    {u : Value} (h : binaryFloat? op a b = some r) (hr : r = .ok u) : u.isAtom = true := by
  subst hr
  cases op <;> simp only [binaryFloat?, Option.some.injEq, Except.ok.injEq, reduceCtorEq] at h
  case divide => exact isAtom_of_map (fun _ => rfl) h
  all_goals
    subst h
    rfl

private theorem isAtom_binaryBool {op : BinaryOp} {a b : Bool} {r : Except Fault Value} {u : Value}
    (h : binaryBool? op a b = some r) (hr : r = .ok u) : u.isAtom = true := by
  subst hr
  cases op <;> simp only [binaryBool?, Option.some.injEq, Except.ok.injEq, reduceCtorEq] at h
  all_goals
    subst h
    rfl

/-- Infix operators give atoms. -/
theorem isAtom_binary {op : BinaryOp} {a b u : Value} (h : Value.binary op a b = .ok u) :
    u.isAtom = true := by
  unfold Value.binary at h
  split at h
  · next m n =>
    cases hr : binaryInt? op m n with
    | none => simp [hr] at h
    | some r => exact isAtom_binaryInt hr (by simpa [hr] using h)
  · next x y =>
    cases hr : binaryFloat? op x y with
    | none => simp [hr] at h
    | some r => exact isAtom_binaryFloat hr (by simpa [hr] using h)
  · next x y =>
    cases hr : binaryBool? op x y with
    | none => simp [hr] at h
    | some r => exact isAtom_binaryBool hr (by simpa [hr] using h)
  · simp at h

end Value

/-- The value itself is a number, if it is asked for as one. -/
theorem Value.number_eq_ok {v u : Value} (h : v.number = .ok u) : u = v ∧ v.isAtom = true := by
  cases v <;> simp only [number, Except.ok.injEq, reduceCtorEq] at h <;> subst h <;>
    exact ⟨rfl, rfl⟩

namespace Builtin

private theorem isAtom_choose {fn : Builtin} {ints : Int → Int → Bool}
    {floats : Float → Float → Bool} {a b u : Value} (h : choose fn ints floats a b = .ok u) :
    u.isAtom = true := by
  unfold choose at h
  cases ha : a.number with
  | error f => simp [ha, bind, Except.bind] at h
  | ok lhs =>
    cases hb : b.number with
    | error f => simp [ha, hb, bind, Except.bind] at h
    | ok rhs =>
      obtain ⟨rfl, hlhs⟩ := Value.number_eq_ok ha
      obtain ⟨rfl, hrhs⟩ := Value.number_eq_ok hb
      simp only [ha, hb, bind, Except.bind] at h
      split at h
      · simp only [Except.ok.injEq] at h
        subst h
        split <;> rfl
      · simp only [Except.ok.injEq] at h
        subst h
        split <;> rfl
      · simp at h

/-- Built-in functions give atoms. -/
theorem isAtom_apply {fn : Builtin} {args : List Value} {u : Value}
    (h : fn.apply args = .ok u) : u.isAtom = true := by
  unfold apply at h
  split at h
  · simp only [Except.ok.injEq] at h
    exact h ▸ rfl
  · simp only [Except.ok.injEq] at h
    exact h ▸ rfl
  · simp at h
  · exact isAtom_choose h
  · exact isAtom_choose h
  · simp at h

end Builtin

/-! ### Faults of operations -/

namespace Fault

/-- Whether a program that is read from source text can be blamed for the fault. -/
def Regular : Fault → Prop
  | undefinedVariable _ | typeMismatch _ _ | invalidBinary _ _ _ | invalidUnary _ _
  | unsupportedOperation _ | unsupportedTruthiness _ | wrongArity _ _ | divisionByZero _ => True
  | expectedValue | lastScope => False

/-- What is said about a regular fault does not blame what runs the program. -/
theorem Regular.internal_notice {f : Fault} (h : f.Regular) (style : Text.Style) :
    (f.notice style).internal = false := by
  cases f with
  | expectedValue | lastScope => exact h.elim
  | _ => rfl

/-- Whether the fault is one of operators. -/
def OfOperator : Fault → Prop
  | invalidBinary _ _ _ | invalidUnary _ _ | divisionByZero _ => True
  | _ => False

/-- The faults of operators are regular. -/
theorem OfOperator.regular {f : Fault} (h : f.OfOperator) : f.Regular := by
  cases f with
  | expectedValue | lastScope => exact h
  | _ => trivial

end Fault

namespace Value

/-- Truth is refused to names and functions only. -/
theorem truth_eq_error {v : Value} {f : Fault} (h : v.truth = .error f) :
    f = .unsupportedTruthiness v ∧ (v.shape = .ident ∨ v.shape = .func) := by
  cases v <;> simp only [truth, Except.error.injEq, reduceCtorEq] at h <;> subst h <;>
    simp [shape]

/-- Only what is no function is refused where a function is asked for. -/
theorem function_eq_error {v : Value} {f : Fault} (h : v.function = .error f) :
    f = .typeMismatch v Shape.func.name ∧ v.shape ≠ .func := by
  cases v <;> simp only [function, Except.error.injEq, reduceCtorEq] at h <;> subst h <;>
    simp [shape]

/-- Only what is no number is refused where a number is asked for. -/
theorem number_eq_error {v : Value} {f : Fault} (h : v.number = .error f) :
    f = .typeMismatch v "Int | Float" ∧ v.shape ≠ .int ∧ v.shape ≠ .float := by
  cases v <;> simp only [number, Except.error.injEq, reduceCtorEq] at h <;> subst h <;>
    simp [shape]

/-- Only truthiness is refused where a truth value is asked for. -/
theorem regular_truth {v : Value} {f : Fault} (h : v.truth = .error f) : f.Regular :=
  (truth_eq_error h).1 ▸ trivial

/-- Only the type is refused where a function is asked for. -/
theorem regular_function {v : Value} {f : Fault} (h : v.function = .error f) : f.Regular :=
  (function_eq_error h).1 ▸ trivial

/-- Prefix operators have faults of operators only. -/
theorem ofOperator_unary {op : UnaryOp} {v : Value} {f : Fault} (h : v.unary op = .error f) :
    f.OfOperator := by
  cases op <;> cases v <;> simp only [unary, Except.error.injEq, reduceCtorEq] at h <;>
    subst h <;> trivial

/-- The faults of prefix operators are regular. -/
theorem regular_unary {op : UnaryOp} {v : Value} {f : Fault} (h : v.unary op = .error f) :
    f.Regular := (ofOperator_unary h).regular

private theorem ofOperator_map {α : Type} {r : Except Fault α} {make : α → Value} {f : Fault}
    (hr : ∀ g, r = .error g → g.OfOperator) (h : r.map make = .error f) : f.OfOperator := by
  cases r with
  | error g =>
    simp only [Except.map, Except.error.injEq] at h
    exact h ▸ hr g rfl
  | ok a => simp [Except.map] at h

/-- Infix operators have faults of operators only. -/
theorem ofOperator_binary {op : BinaryOp} {a b : Value} {f : Fault}
    (h : Value.binary op a b = .error f) : f.OfOperator := by
  have hinvalid {l r : Value} (h : Except.error (.invalidBinary l op.sign r) =
      (.error f : Except Fault Value)) : f.OfOperator := by
    cases h
    trivial
  unfold Value.binary at h
  split at h
  · next m n =>
    cases op <;> simp only [binaryInt?, Option.getD_some, Option.getD_none, reduceCtorEq] at h
    case divide =>
      refine ofOperator_map (fun g hg => ?_) h
      unfold divideInt at hg
      split at hg
      · cases hg
        trivial
      · cases hg
    all_goals exact hinvalid h
  · next x y =>
    cases op <;> simp only [binaryFloat?, Option.getD_some, Option.getD_none, reduceCtorEq] at h
    case divide =>
      refine ofOperator_map (fun g hg => ?_) h
      unfold divideFloat at hg
      split at hg
      · cases hg
        trivial
      · cases hg
    all_goals exact hinvalid h
  · next x y =>
    cases op <;> simp only [binaryBool?, Option.getD_some, Option.getD_none, reduceCtorEq] at h
    all_goals exact hinvalid h
  · exact hinvalid h

/-- The faults of infix operators are regular. -/
theorem regular_binary {op : BinaryOp} {a b : Value} {f : Fault}
    (h : Value.binary op a b = .error f) : f.Regular := (ofOperator_binary h).regular

end Value

namespace Builtin

/-- How a built-in function can fail for these arguments. -/
inductive Fails (fn : Builtin) (args : List Value) : Fault → Prop
  /-- One of them is no number. -/
  | noNumber {v : Value} (hv : v ∈ args) (hint : v.shape ≠ .int) (hfloat : v.shape ≠ .float) :
      Fails fn args (.typeMismatch v "Int | Float")
  /-- They are numbers of different sorts. -/
  | differ (a b : Value) : Fails fn args (.invalidBinary a fn.name b)
  /-- They are too few or too many. -/
  | arity (expected actual : Nat) : Fails fn args (.wrongArity expected actual)

/-- Built-in functions fail regularly. -/
theorem Fails.regular {fn : Builtin} {args : List Value} {f : Fault} (h : fn.Fails args f) :
    f.Regular := by
  cases h <;> trivial

private theorem fails_choose {fn : Builtin} {ints : Int → Int → Bool}
    {floats : Float → Float → Bool} {a b : Value} {f : Fault}
    (h : choose fn ints floats a b = .error f) : fn.Fails [a, b] f := by
  unfold choose at h
  cases ha : a.number with
  | error g =>
    simp only [ha, bind, Except.bind, Except.error.injEq] at h
    obtain ⟨rfl, hint, hfloat⟩ := Value.number_eq_error ha
    exact h ▸ .noNumber (by simp) hint hfloat
  | ok lhs =>
    cases hb : b.number with
    | error g =>
      simp only [ha, hb, bind, Except.bind, Except.error.injEq] at h
      obtain ⟨rfl, hint, hfloat⟩ := Value.number_eq_error hb
      exact h ▸ .noNumber (by simp) hint hfloat
    | ok rhs =>
      simp only [ha, hb, bind, Except.bind] at h
      split at h
      · cases h
      · cases h
      · cases h
        exact .differ _ _

/-- Built-in functions fail in these ways only. -/
theorem fails_apply {fn : Builtin} {args : List Value} {f : Fault}
    (h : fn.apply args = .error f) : fn.Fails args f := by
  unfold apply at h
  split at h
  · cases h
  · cases h
  · next v hint hfloat =>
    cases h
    refine .noNumber (by simp) ?_ ?_
    · cases v with
      | int n => exact (hint n rfl).elim
      | _ => simp [Value.shape]
    · cases v with
      | float x => exact (hfloat x rfl).elim
      | _ => simp [Value.shape]
  · exact fails_choose h
  · exact fails_choose h
  · cases h
    exact .arity _ _

/-- The faults of built-in functions are regular. -/
theorem regular_apply {fn : Builtin} {args : List Value} {f : Fault}
    (h : fn.apply args = .error f) : f.Regular := (fails_apply h).regular

end Builtin

end Lox
