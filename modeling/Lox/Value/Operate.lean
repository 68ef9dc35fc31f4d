import Lox.Fault

/-!
# Operations on values

The operators and built-in functions. Both operands of an infix operator have the same sort; which
operators a sort has, its rules below say. Integers are unbounded and their division truncates.
-/

namespace Lox

namespace Value

/-- Whether a condition holds: numbers above zero, strings with characters and `true` do; names and
functions decide nothing. Models `Object.truthy`. -/
def truth : Value → Except Fault Bool
  | int n => .ok (decide (0 < n))
  | float x => .ok (decide (0 < x))
  | str s => .ok (!s.isEmpty)
  | bool b => .ok b
  | unit => .ok false
  | v => .error (.unsupportedTruthiness v)

/-- `lhs / rhs`, truncated toward zero. Models `int_divide`. -/
def divideInt (lhs rhs : Int) : Except Fault Int :=
  if rhs = 0 then .error (.divisionByZero (int lhs)) else .ok (lhs.tdiv rhs)

/-- `lhs / rhs` of doubles; both zeros are refused as divisors. Models `float_divide`. -/
def divideFloat (lhs rhs : Float) : Except Fault Float :=
  if rhs == 0 then .error (.divisionByZero (float lhs)) else .ok (lhs / rhs)

/-- An operator between two integers, for the operators that integers have. Models `INT_BINARY`. -/
def binaryInt? (op : BinaryOp) (a b : Int) : Option (Except Fault Value) :=
  match op with
  | .plus => some (.ok (int (a + b)))
  | .minus => some (.ok (int (a - b)))
  | .times => some (.ok (int (a * b)))
  | .divide => some ((divideInt a b).map int)
  | .gt => some (.ok (bool (decide (b < a))))
  | .ge => some (.ok (bool (decide (b ≤ a))))
  | .lt => some (.ok (bool (decide (a < b))))
  | .le => some (.ok (bool (decide (a ≤ b))))
  | .eq => some (.ok (bool (decide (a = b))))
  | .ne => some (.ok (bool (decide (a ≠ b))))
  | .and | .or => none

/-- An operator between two doubles, for the operators that doubles have. Models `FLOAT_BINARY`. -/
def binaryFloat? (op : BinaryOp) (a b : Float) : Option (Except Fault Value) :=
  match op with
  | .plus => some (.ok (float (a + b)))
  | .minus => some (.ok (float (a - b)))
  | .times => some (.ok (float (a * b)))
  | .divide => some ((divideFloat a b).map float)
  | .gt => some (.ok (bool (decide (b < a))))
  | .ge => some (.ok (bool (decide (b ≤ a))))
  | .lt => some (.ok (bool (decide (a < b))))
  | .le => some (.ok (bool (decide (a ≤ b))))
  | .eq => some (.ok (bool (a == b)))
  | .ne => some (.ok (bool (a != b)))
  | .and | .or => none

/-- An operator between two truth values, which are only compared; `false` is below `true`. Models
`BOOL_BINARY`. -/
def binaryBool? (op : BinaryOp) (a b : Bool) : Option (Except Fault Value) :=
  match op with
  | .gt => some (.ok (bool (a && !b)))
  | .ge => some (.ok (bool (a || !b)))
  | .lt => some (.ok (bool (!a && b)))
  | .le => some (.ok (bool (!a || b)))
  | .eq => some (.ok (bool (a == b)))
  | .ne => some (.ok (bool (a != b)))
  | .plus | .minus | .times | .divide | .and | .or => none

/-- An infix operator on two values that are already computed. Models `Object.binop`. -/
def binary (op : BinaryOp) (lhs rhs : Value) : Except Fault Value :=
  let result? :=
    match lhs, rhs with
    | int a, int b => binaryInt? op a b
    | float a, float b => binaryFloat? op a b
    | bool a, bool b => binaryBool? op a b
    | _, _ => none
  result?.getD (.error (.invalidBinary lhs op.sign rhs))

/-- A prefix operator. On an integer, `not` flips every bit. Models `Object.unop` with `INT_UNARY`,
`FLOAT_UNARY` and `BOOL_UNARY`. -/
def unary (op : UnaryOp) (operand : Value) : Except Fault Value :=
  match op, operand with
  | .not, int n => .ok (int (-n - 1))
  | .minus, int n => .ok (int (-n))
  | .minus, float x => .ok (float (-x))
  | .not, bool b => .ok (bool !b)
  | op, v => .error (.invalidUnary op v)

/-- The value itself if it is of the sort. Models `Object.coerce`. -/
def expect (shape : Shape) (v : Value) : Except Fault Value :=
  if v.shape = shape then .ok v else .error (.typeMismatch v shape.name)

/-- The function that a value is. Models `Func.coerce`. -/
def function : Value → Except Fault Function
  | func f => .ok f
  | v => .error (.typeMismatch v Shape.func.name)

/-- The value itself if it is a number. Models `_number`. -/
def number (v : Value) : Except Fault Value :=
  match v with
  | int _ | float _ => .ok v
  | v => .error (.typeMismatch v "Int | Float")

end Value

namespace Builtin

/-- One of two numbers of the same sort: the first if the comparison says so. Models `_same_type`
and the choice of `lox_min` and `lox_max`. -/
def choose (fn : Builtin) (ints : Int → Int → Bool) (floats : Float → Float → Bool)
    (a b : Value) : Except Fault Value := do
  let lhs ← a.number
  let rhs ← b.number
  match lhs, rhs with
  | .int m, .int n => .ok (if ints m n then lhs else rhs)
  | .float x, .float y => .ok (if floats x y then lhs else rhs)
  | _, _ => .error (.invalidBinary lhs fn.name rhs)

/-- The result of a built-in function for as many arguments as it has parameters. Models `lox_abs`,
`lox_min` and `lox_max`. -/
def apply : Builtin → List Value → Except Fault Value
  | abs, [.int n] => .ok (.int n.natAbs)
  | abs, [.float x] => .ok (.float x.abs)
  | abs, [v] => .error (.typeMismatch v "Int | Float")
  | min, [a, b] =>
    choose min (fun m n => decide (m ≤ n)) (fun x y => decide (x ≤ y)) a b
  | max, [a, b] =>
    choose max (fun m n => decide (n ≤ m)) (fun x y => decide (y ≤ x)) a b
  | fn, args => .error (.wrongArity fn.params.length args.length)

end Builtin

end Lox
