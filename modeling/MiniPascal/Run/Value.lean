import MiniPascal.Number.Integer
import MiniPascal.Number.RealStyle
import MiniPascal.Number.Rounding
import MiniPascal.Tree.Basic

/-!
Values and the operations on them. Integers are computed exactly and must fit in 64 bits, reals are
rounded and must stay finite; what does neither is an overflow.
-/

set_option autoImplicit false
set_option relaxedAutoImplicit false

namespace MiniPascal

inductive Value
  | integer (n : Int64)
  | real (x : Binary64)
  deriving DecidableEq

/-- Why an expression has no value. An overflow names the operator by its symbol. -/
inductive EvalError
  | undefined (name : String)
  | divisionByZero
  | overflow (symbol : String)
  deriving DecidableEq

namespace EvalError

def message : EvalError → String
  | .undefined name => "Undefined variable: " ++ name
  | .divisionByZero => "Division by zero"
  | .overflow symbol => "Integer overflow in " ++ symbol

end EvalError

namespace Value

def write : Value → List Char
  | .integer n => Integer.write n
  | .real x => RealStyle.value.write x

def text (v : Value) : String := String.ofList v.write

def toReal : Value → Binary64
  | .integer n => Binary64.ofInt n.toInt
  | .real x => x

def isZero : Value → Bool
  | .integer n => n = 0
  | .real x => x.isZero

def ofWord? (symbol : String) : Option Int64 → Except EvalError Value
  | some w => .ok (.integer w)
  | none => .error (.overflow symbol)

def ofInt (symbol : String) (n : Int) : Except EvalError Value := ofWord? symbol (Integer.ofInt? n)

/-- A rounded real result, if it is finite. -/
def ofReal (symbol : String) (x : Binary64) : Except EvalError Value :=
  if x.isFinite then .ok (.real x) else .error (.overflow symbol)

def ofFloor (symbol : String) (x : Binary64) : Except EvalError Value :=
  if x.isFinite then ofInt symbol x.floor else .error (.overflow symbol)

/-- Two integers are combined exactly, any other two values as reals. -/
def combine (symbol : String) (exact : Int → Int → Int) (rounded : Binary64 → Binary64 → Binary64) :
    Value → Value → Except EvalError Value
  | .integer m, .integer n => ofInt symbol (exact m.toInt n.toInt)
  | x, y => ofReal symbol (rounded x.toReal y.toReal)

def floorDiv (symbol : String) : Value → Value → Except EvalError Value
  | .integer m, .integer n => ofWord? symbol (Integer.floorDiv? m n)
  | x, y => ofFloor symbol (x.toReal / y.toReal)

/-- Division, by whatever operator, asks for a divisor other than zero. -/
def apply (op : BinaryOp) (x y : Value) : Except EvalError Value :=
  match op with
  | .add => combine op.text (· + ·) (· + ·) x y
  | .subtract => combine op.text (· - ·) (· - ·) x y
  | .multiply => combine op.text (· * ·) (· * ·) x y
  | .divide =>
    if y.isZero then .error .divisionByZero else ofReal op.text (x.toReal / y.toReal)
  | .div => if y.isZero then .error .divisionByZero else floorDiv op.text x y

def negate : Value → Except EvalError Value
  | .integer n => ofInt UnaryOp.minus.text (-n.toInt)
  | .real x => .ok (.real x.negate)

def applySign (op : UnaryOp) (v : Value) : Except EvalError Value :=
  match op with
  | .plus => .ok v
  | .minus => v.negate

end Value

end MiniPascal
