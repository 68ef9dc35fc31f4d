import Lox.Decimal.Whole
import Lox.Decimal.Layout
import Lox.Syntax

/-!
# Values

What a running program computes with. A name is a value of its own sort; programs handle it only
where a name is asked for, and never compute one.
-/

namespace Lox

/-- Refers to a scope of an environment. -/
abbrev ScopeId := Nat

/-- Functions. One that was declared keeps the scope that holds its captured variables. Models
`UserFn` and `BuiltinFn`. -/
inductive Function where
  | user (name : String) (params : List String) (body : Block) (closure : ScopeId)
  | builtin (fn : Builtin)

namespace Function

/-- The name of the function itself, whatever it is bound to. -/
def name : Function → String
  | user name _ _ _ => name
  | builtin fn => fn.name

/-- The names of its parameters. -/
def params : Function → List String
  | user _ params _ _ => params
  | builtin fn => fn.params

/-- The number of its parameters. Models `LoxFn.arity`. -/
def arity (f : Function) : Nat := f.params.length

end Function

/-- Values. Models `Object`. -/
inductive Value where
  | int (n : Int)
  | float (x : Float)
  | str (s : String)
  | bool (b : Bool)
  | ident (x : String)
  | func (f : Function)
  | unit

/-- The sorts of values. -/
inductive Shape where
  | int | float | str | bool | ident | func | unit
  deriving DecidableEq, Repr

namespace Shape

/-- The sort as messages call it. -/
def name : Shape → String
  | int => "Int" | float => "Float" | str => "Str" | bool => "Bool" | ident => "Ident"
  | func => "Func" | unit => "Unit"

end Shape

/-- The value that a literal stands for. -/
def Literal.value : Literal → Value
  | int n => .int n
  | float x => .float x
  | str s => .str s
  | bool b => .bool b
  | unit => .unit

namespace Value

/-- The sort of a value. -/
def shape : Value → Shape
  | int _ => .int | float _ => .float | str _ => .str | bool _ => .bool | ident _ => .ident
  | func _ => .func | unit => .unit

/-- Whether the value can be written out, which only too long integers cannot. -/
def isWritable : Value → Bool
  | int n => Decimal.isWritable n
  | _ => true

/-- The text of a value, whatever its length. Models `__str__` of each `Object`. -/
def text : Value → String
  | int n => toString n
  | float x => Decimal.doubleText x
  | str s => s
  | bool true => "true"
  | bool false => "false"
  | ident x => x
  | func f => "<func " ++ f.name ++ "(" ++ toString f.arity ++ ")>"
  | unit => "()"

/-- The text of a value that can be written out. -/
def text? (v : Value) : Option String := if v.isWritable then some v.text else none

/-- The text of a value in which a string stands in quotes. Models `Object.debug`. -/
def shown? : Value → Option String
  | str s => some ("\"" ++ s ++ "\"")
  | v => v.text?

end Value

end Lox
