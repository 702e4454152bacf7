import Mathlib.Tactic.Common
import MiniPascal.Run.Value

/-!
What operations come to. Whether the result of an operation is an integer or a real depends on the
operator and on the kinds of its operands only, and an operation that has no result has an error of
its own. `Value.yields_apply` and `Value.yields_applySign` say so.
-/

set_option autoImplicit false
set_option relaxedAutoImplicit false

namespace MiniPascal

inductive Kind
  | integer | real
  deriving DecidableEq

def Value.kind : Value → Kind
  | .integer _ => .integer
  | .real _ => .real

def Kind.combine : Kind → Kind → Kind
  | .integer, .integer => .integer
  | _, _ => .real

/-- One kind of division has real quotients, the other one integers, whatever is divided. -/
def BinaryOp.kind (op : BinaryOp) (k k' : Kind) : Kind :=
  match op with
  | .add | .subtract | .multiply => k.combine k'
  | .divide => .real
  | .div => .integer

/-- A value of the kind, or an error of arithmetic. -/
inductive Yields (kind : Kind) : Except EvalError Value → Prop
  | value {v : Value} (of_kind : v.kind = kind) : Yields kind (.ok v)
  | divisionByZero : Yields kind (.error .divisionByZero)
  | overflow (symbol : String) : Yields kind (.error (.overflow symbol))

section Yields

variable {kind : Kind} {result : Except EvalError Value}

theorem Yields.kind_eq (h : Yields kind result) {v : Value} (hv : result = .ok v) :
    v.kind = kind := by
  cases h with
  | value of_kind =>
    cases hv
    exact of_kind
  | divisionByZero => cases hv
  | overflow symbol => cases hv

theorem Yields.ne_undefined (h : Yields kind result) (name : String) :
    result ≠ .error (.undefined name) := by
  cases h <;> simp

end Yields

namespace Value

variable {symbol : String}

private theorem yields_ofWord? (w : Option Int64) : Yields .integer (ofWord? symbol w) := by
  cases w with
  | none => exact .overflow symbol
  | some n => exact .value rfl

private theorem yields_ofInt (n : Int) : Yields .integer (ofInt symbol n) := yields_ofWord? _

private theorem yields_ofReal (x : Binary64) : Yields .real (ofReal symbol x) := by
  unfold ofReal
  split
  · exact .value rfl
  · exact .overflow symbol

private theorem yields_ofFloor (x : Binary64) : Yields .integer (ofFloor symbol x) := by
  unfold ofFloor
  split
  · exact yields_ofInt _
  · exact .overflow symbol

private theorem yields_combine (exact : Int → Int → Int) (rounded : Binary64 → Binary64 → Binary64)
    (x y : Value) : Yields (x.kind.combine y.kind) (combine symbol exact rounded x y) := by
  cases x with
  | integer m =>
    cases y with
    | integer n => exact yields_ofInt _
    | real s => exact yields_ofReal _
  | real r => exact yields_ofReal _

private theorem yields_floorDiv (x y : Value) : Yields .integer (floorDiv symbol x y) := by
  cases x with
  | integer m =>
    cases y with
    | integer n => exact yields_ofWord? _
    | real s => exact yields_ofFloor _
  | real r => exact yields_ofFloor _

theorem yields_apply (op : BinaryOp) (x y : Value) :
    Yields (op.kind x.kind y.kind) (apply op x y) := by
  cases op with
  | add => exact yields_combine _ _ x y
  | subtract => exact yields_combine _ _ x y
  | multiply => exact yields_combine _ _ x y
  | divide =>
    simp only [apply]
    split
    · exact .divisionByZero
    · exact yields_ofReal _
  | div =>
    simp only [apply]
    split
    · exact .divisionByZero
    · exact yields_floorDiv x y

theorem yields_applySign (op : UnaryOp) (v : Value) : Yields v.kind (applySign op v) := by
  cases op with
  | plus => exact .value rfl
  | minus =>
    cases v with
    | integer n => exact yields_ofInt _
    | real x => exact .value rfl

end Value

end MiniPascal
