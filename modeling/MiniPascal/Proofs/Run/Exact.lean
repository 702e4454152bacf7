import Mathlib.Algebra.Group.Int.Defs
import MiniPascal.Run.Session

/-!
Calculating with integers. An expression that has to do with integers only is evaluated as over the
unbounded integers, with division toward minus infinity, as long as every operation has a result
that fits; the first one that has none is reported. `Expr.eval_exact` says so of expressions of any
size, and how division keeps within 64 bits on its way.
-/

set_option autoImplicit false
set_option relaxedAutoImplicit false

namespace MiniPascal

/-- An operation of a calculation: how it is written, what it divides by if it is a division, and
its result over the unbounded integers. -/
structure Operation where
  symbol : String
  divisor : Option Int
  result : Int
  deriving DecidableEq

def Operation.fault? (o : Operation) : Option EvalError :=
  if o.divisor = some 0 then some .divisionByZero
  else if -2 ^ 63 ≤ o.result ∧ o.result < 2 ^ 63 then none
  else some (.overflow o.symbol)

/-- The operation that an operator between integers stands for; `/` makes a real of them. -/
def BinaryOp.operation? : BinaryOp → Int → Int → Option Operation
  | .add, m, n => some ⟨"+", none, m + n⟩
  | .subtract, m, n => some ⟨"-", none, m - n⟩
  | .multiply, m, n => some ⟨"*", none, m * n⟩
  | .divide, _, _ => none
  | .div, m, n => some ⟨"DIV", some n, m.fdiv n⟩

/-- An expression of integers: literals and variables that hold integers, with signs and the
operators other than `/`. -/
def Expr.OfIntegers (store : Store) : Expr → Prop
  | .integer _ => True
  | .real _ => False
  | .var name => ∃ n, store.get? name = some (.integer n)
  | .unary _ e => e.OfIntegers store
  | .binary l op r => op ≠ .divide ∧ l.OfIntegers store ∧ r.OfIntegers store

/-- An expression of integers, the operations that it asks for, from left to right and operands
before operators, and its value over the unbounded integers. -/
inductive Expr.Computes (store : Store) : Expr → List Operation → Int → Prop
  | integer (n : Int64) : Expr.Computes store (.integer n) [] n.toInt
  | var {name : String} {n : Int64} (bound : store.get? name = some (.integer n)) :
      Expr.Computes store (.var name) [] n.toInt
  | plus {e : Expr} {ops : List Operation} {n : Int} (operand : Expr.Computes store e ops n) :
      Expr.Computes store (.unary .plus e) ops n
  | minus {e : Expr} {ops : List Operation} {n : Int} (operand : Expr.Computes store e ops n) :
      Expr.Computes store (.unary .minus e) (ops ++ [⟨"-", none, -n⟩]) (-n)
  | binary {l r : Expr} {op : BinaryOp} {ops ops' : List Operation} {m n : Int} {o : Operation}
      (left : Expr.Computes store l ops m) (right : Expr.Computes store r ops' n)
      (known : op.operation? m n = some o) :
      Expr.Computes store (.binary l op r) (ops ++ (ops' ++ [o])) o.result

/-- A calculation that comes to `n` gives that integer, unless there is a fault in it. -/
def Reports (result : Except EvalError Value) (n : Int) : Option EvalError → Prop
  | none => ∃ w : Int64, w.toInt = n ∧ result = .ok (.integer w)
  | some fault => result = .error fault

section Reports

variable {result : Except EvalError Value} {m n : Int} {before after : Option EvalError}

private theorem Reports.bind {g : Value → Except EvalError Value} (first : Reports result m before)
    (next : ∀ w : Int64, w.toInt = m → Reports (g (.integer w)) n after) :
    Reports (result >>= g) n (before.or after) := by
  cases before with
  | none =>
    obtain ⟨w, hw, rfl⟩ := first
    exact next w hw
  | some fault =>
    cases first
    rfl

private theorem reports_ofInt (symbol : String) (n : Int) :
    Reports (Value.ofInt symbol n) n (Operation.fault? ⟨symbol, none, n⟩) := by
  have hfits : Integer.ofInt? n = none ↔ ¬ (-2 ^ 63 ≤ n ∧ n < 2 ^ 63) := by
    rw [Integer.ofInt?_eq_none_iff, Int64.toInt_minValue, Int64.toInt_maxValue]
    omega
  unfold Value.ofInt Operation.fault?
  rw [if_neg (Option.some_ne_none 0).symm]
  cases hword : Integer.ofInt? n with
  | none =>
    rw [if_neg (hfits.mp hword)]
    rfl
  | some w =>
    have hsome : Integer.ofInt? n ≠ none := hword ▸ Option.some_ne_none w
    rw [if_pos (Decidable.of_not_not (mt hfits.mpr hsome))]
    exact ⟨w, Integer.ofInt?_eq_some_iff.mp hword, rfl⟩

/-- Division looks at its divisor first; then only the floor has to fit. -/
private theorem reports_div (m n : Int64) :
    Reports (Value.apply .div (.integer m) (.integer n)) (m.toInt.fdiv n.toInt)
      (Operation.fault? ⟨"DIV", some n.toInt, m.toInt.fdiv n.toInt⟩) := by
  have hzero : n.toInt = 0 ↔ n = 0 := by rw [← Int64.toInt_zero, Int64.toInt_inj]
  simp only [Value.apply, Value.isZero, Value.floorDiv, decide_eq_true_eq]
  by_cases hn : n = 0
  · subst hn
    rfl
  · have hfault : Operation.fault? ⟨"DIV", some n.toInt, m.toInt.fdiv n.toInt⟩ =
        Operation.fault? ⟨"DIV", none, m.toInt.fdiv n.toInt⟩ := by
      simp [Operation.fault?, hzero, hn]
    rw [if_neg hn, Integer.floorDiv?_eq hn, hfault]
    exact reports_ofInt _ _

private theorem reports_apply {op : BinaryOp} {m n : Int64} {o : Operation}
    (known : op.operation? m.toInt n.toInt = some o) :
    Reports (Value.apply op (.integer m) (.integer n)) o.result o.fault? := by
  cases op with
  | add | subtract | multiply =>
    cases known
    exact reports_ofInt _ _
  | divide => cases known
  | div =>
    cases known
    exact reports_div m n

/-- By induction on the expression: the faults of the left operand come before those of the right
one, and these before that of the operator. -/
private theorem Expr.Computes.reports {store : Store} {e : Expr} {ops : List Operation}
    (h : e.Computes store ops n) :
    Reports (e.eval store) n (ops.findSome? Operation.fault?) := by
  induction h with
  | integer n => exact ⟨n, rfl, rfl⟩
  | var bound => exact ⟨_, rfl, by rw [eval, bound]⟩
  | @plus e ops n _ ih =>
    rw [eval, ← Option.or_none (o := ops.findSome? Operation.fault?)]
    exact ih.bind fun w hw => ⟨w, hw, rfl⟩
  | minus _ ih =>
    rw [eval, List.findSome?_append]
    refine ih.bind fun w hw => ?_
    rw [List.findSome?_singleton, ← hw]
    exact reports_ofInt _ _
  | binary _ _ known ihl ihr =>
    rw [eval, List.findSome?_append, List.findSome?_append, List.findSome?_singleton]
    refine ihl.bind fun w hw => ihr.bind fun w' hw' => ?_
    subst hw hw'
    exact reports_apply known

private theorem BinaryOp.exists_operation {op : BinaryOp} (h : op ≠ .divide) (m n : Int) :
    ∃ o, op.operation? m n = some o := by
  cases op with
  | divide => exact absurd rfl h
  | _ => exact ⟨_, rfl⟩

private theorem Expr.OfIntegers.exists_computes {store : Store} {e : Expr}
    (h : e.OfIntegers store) : ∃ ops n, e.Computes store ops n := by
  induction e with
  | integer n => exact ⟨_, _, .integer n⟩
  | real x => exact h.elim
  | var name =>
    obtain ⟨n, bound⟩ := h
    exact ⟨_, _, .var bound⟩
  | unary op e ih =>
    obtain ⟨ops, n, hcomputes⟩ := ih h
    cases op with
    | plus => exact ⟨_, _, .plus hcomputes⟩
    | minus => exact ⟨_, _, .minus hcomputes⟩
  | binary l op r ihl ihr =>
    obtain ⟨hop, hl, hr⟩ := h
    obtain ⟨ops, m, hleft⟩ := ihl hl
    obtain ⟨ops', n, hright⟩ := ihr hr
    obtain ⟨o, known⟩ := BinaryOp.exists_operation hop m n
    exact ⟨_, _, .binary hleft hright known⟩

/-- An expression of integers comes to its exact value if no operation in it divides by zero or has
a result of more than 64 bits, and otherwise to the error of the first one that does. On its way a
division takes a remainder only where there is one, and what it takes off the quotient toward zero
leaves it within 64 bits. -/
theorem Expr.eval_exact {store : Store} {e : Expr} (h : e.OfIntegers store) :
    (∃ ops n, e.Computes store ops n) ∧
    (∀ ops n, e.Computes store ops n →
      match ops.findSome? Operation.fault? with
      | none => ∃ w : Int64, w.toInt = n ∧ e.eval store = .ok (.integer w)
      | some fault => e.eval store = .error fault) ∧
    ∀ m d q : Int64, Integer.quotient? m d = some q →
      d ≠ 0 ∧ ¬ (m = Int64.minValue ∧ d = -1) ∧ q.toInt = m.toInt.tdiv d.toInt ∧
        (m % d).toInt = m.toInt.tmod d.toInt ∧
        (m % d ≠ 0 → ∃ w : Int64, w.toInt = q.toInt - 1) := by
  refine ⟨h.exists_computes, fun ops n hcomputes => hcomputes.reports, ?_⟩
  intro m d q hq
  unfold Integer.quotient? at hq
  split at hq
  · cases hq
  · rename_i hd
    have hvalue := Integer.ofInt?_eq_some_iff.mp hq
    refine ⟨hd, ?_, hvalue, Int64.toInt_mod m d, ?_⟩
    · rintro ⟨rfl, rfl⟩
      have hnone : Integer.ofInt? (Int64.minValue.toInt.tdiv (-1 : Int64).toInt) = none := by decide
      rw [hnone] at hq
      cases hq
    · intro hremainder
      have hdvd : ¬ d.toInt ∣ m.toInt := mt Integer.mod_eq_zero_iff.mpr hremainder
      obtain ⟨q', w, hq', hw⟩ := Integer.exists_ofInt?_pred hdvd
      obtain rfl : q = q' := Option.some.inj (hq.symm.trans hq')
      exact ⟨w, Integer.ofInt?_eq_some_iff.mp hw⟩

/-- Minus seven is divided toward minus infinity; behind that, the least integer has no quotient by
minus one, and this is reported before a division by zero further on. -/
theorem Expr.eval_quotients :
    let store := Store.empty.put "a" (.integer Int64.minValue)
    let floor : Expr := .binary (.unary .minus (.integer 7)) .div (.integer 2)
    let least : Expr := .binary (.var "a") .div (.unary .minus (.integer 1))
    let zero : Expr := .binary (.integer 1) .div (.integer 0)
    (∃ w : Int64, w.toInt = -4 ∧ floor.eval store = .ok (.integer w)) ∧
      Expr.eval store (.binary floor .add (.binary least .multiply zero)) =
        .error (.overflow "DIV") := by
  intro store floor least zero
  have hfloor : floor.Computes store [⟨"-", none, -7⟩, ⟨"DIV", some 2, -4⟩] (-4) :=
    .binary (.minus (.integer 7)) (.integer 2) rfl
  have hleast : least.Computes store [⟨"-", none, -1⟩, ⟨"DIV", some (-1), 2 ^ 63⟩] (2 ^ 63) :=
    .binary (.var rfl) (.minus (.integer 1)) rfl
  have hzero : zero.Computes store [⟨"DIV", some 0, 0⟩] 0 := .binary (.integer 1) (.integer 0) rfl
  have hfloor' : floor.OfIntegers store := ⟨nofun, trivial, trivial⟩
  have hsum : Expr.OfIntegers store (.binary floor .add (.binary least .multiply zero)) :=
    ⟨nofun, hfloor', nofun, ⟨nofun, ⟨_, rfl⟩, trivial⟩, nofun, trivial, trivial⟩
  exact ⟨(eval_exact hfloor').2.1 _ _ hfloor,
    (eval_exact hsum).2.1 _ _ (.binary hfloor (.binary hleast hzero rfl) rfl)⟩

end Reports

end MiniPascal
