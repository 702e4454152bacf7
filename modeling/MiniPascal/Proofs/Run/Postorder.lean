import MiniPascal.Run.Session

/-!
The order of evaluation. An expression is evaluated as a stack machine runs through its parts, the
operands of each operation before the operation and the left one before the right one.
`Expr.evaluates_in_postorder` says that the values and the errors are the same, so that of several
faults the first one in this order is reported.
-/

set_option autoImplicit false
set_option relaxedAutoImplicit false

namespace MiniPascal

/-- One instruction of a stack machine. -/
inductive Instruction
  | push (v : Value)
  | load (name : String)
  | apply (op : BinaryOp)
  | sign (op : UnaryOp)
  deriving DecidableEq

/-- Why a stack machine stops: what it has to do has an error, or there are too few values. -/
inductive Halt
  | fault (e : EvalError)
  | underflow
  deriving DecidableEq

def EvalError.of? : Except EvalError Value → Option EvalError
  | .ok _ => none
  | .error e => some e

namespace Instruction

def put (stack : List Value) : Except EvalError Value → Except Halt (List Value)
  | .ok v => .ok (v :: stack)
  | .error e => .error (.fault e)

/-- An operator takes the right operand off the stack and then the left one. A plus sign is no
operation. -/
def step (store : Store) (stack : List Value) : Instruction → Except Halt (List Value)
  | .push v => .ok (v :: stack)
  | .load name =>
    match store.get? name with
    | some v => .ok (v :: stack)
    | none => .error (.fault (.undefined name))
  | .apply op =>
    match stack with
    | y :: x :: rest => put rest (Value.apply op x y)
    | _ => .error .underflow
  | .sign .plus => .ok stack
  | .sign .minus =>
    match stack with
    | v :: rest => put rest v.negate
    | [] => .error .underflow

def run (store : Store) (code : List Instruction) (stack : List Value) :
    Except Halt (List Value) :=
  code.foldlM (step store) stack

end Instruction

namespace Expr

/-- The parts of an expression, itself the last one: operands come before their operation, and the
parts of a left operand before those of the right one. -/
def parts : Expr → List Expr
  | .integer n => [.integer n]
  | .real x => [.real x]
  | .var name => [.var name]
  | .binary left op right => left.parts ++ (right.parts ++ [.binary left op right])
  | .unary op operand => operand.parts ++ [.unary op operand]

/-- The instruction that a part is left to be when its own parts have been carried out. -/
def instruction : Expr → Instruction
  | .integer n => .push (.integer n)
  | .real x => .push (.real x)
  | .var name => .load name
  | .binary _ op _ => .apply op
  | .unary op _ => .sign op

def instructions (e : Expr) : List Instruction := e.parts.map instruction

/-- What is wrong with an expression where nothing is wrong with its operands: a variable without a
value, or an operation that has no result. -/
def fault? (store : Store) : Expr → Option EvalError
  | .integer _ | .real _ => none
  | .var name => if (store.get? name).isSome then none else some (.undefined name)
  | .binary left op right =>
    match left.eval store, right.eval store with
    | .ok x, .ok y => EvalError.of? (Value.apply op x y)
    | _, _ => none
  | .unary op operand =>
    match operand.eval store with
    | .ok v => EvalError.of? (Value.applySign op v)
    | .error _ => none

end Expr

section Machine

open Instruction (run put)

variable {store : Store} {stack : List Value}

private theorem Instruction.run_append (code code' : List Instruction) :
    run store (code ++ code') stack = run store code stack >>= run store code' :=
  List.foldlM_append

private theorem Instruction.run_cons (i : Instruction) (code : List Instruction) :
    run store (i :: code) stack = i.step store stack >>= run store code :=
  List.foldlM_cons

private theorem Instruction.run_singleton (i : Instruction) :
    run store [i] stack = i.step store stack := by
  rw [run_cons]
  cases i.step store stack <;> rfl

private theorem Instruction.step_sign (op : UnaryOp) (v : Value) :
    (sign op).step store (v :: stack) = put stack (Value.applySign op v) := by
  cases op <;> rfl

/-- By induction on the expression, on any stack: what the left operand has left there is below
what the right one puts on it. -/
private theorem Expr.run_instructions (e : Expr) :
    run store e.instructions stack = put stack (e.eval store) := by
  induction e generalizing stack with
  | integer n => rfl
  | real x => rfl
  | var name =>
    rw [instructions, parts, List.map_singleton, Instruction.run_singleton, instruction,
      Instruction.step, eval]
    cases store.get? name <;> rfl
  | binary left op right ihl ihr =>
    rw [instructions] at ihl ihr
    rw [instructions, parts, List.map_append, List.map_append, Instruction.run_append, ihl, eval]
    cases left.eval store with
    | error e => rfl
    | ok x =>
      change run store (right.parts.map instruction ++ [.apply op]) (x :: stack) = _
      rw [Instruction.run_append, ihr]
      cases right.eval store with
      | error e => rfl
      | ok y => exact Instruction.run_singleton _
  | unary op operand ih =>
    rw [instructions] at ih
    rw [instructions, parts, List.map_append, Instruction.run_append, ih, eval]
    cases operand.eval store with
    | error e => rfl
    | ok v => exact (Instruction.run_singleton _).trans (Instruction.step_sign op v)

private theorem Expr.findSome?_fault? (e : Expr) :
    e.parts.findSome? (fault? store) = EvalError.of? (e.eval store) := by
  induction e with
  | integer n => rfl
  | real x => rfl
  | var name =>
    rw [parts, List.findSome?_singleton, fault?, eval]
    cases store.get? name <;> rfl
  | binary left op right ihl ihr =>
    rw [parts, List.findSome?_append, List.findSome?_append, List.findSome?_singleton, ihl, ihr,
      fault?, eval]
    cases left.eval store with
    | error e => rfl
    | ok x => cases right.eval store <;> rfl
  | unary op operand ih =>
    rw [parts, List.findSome?_append, List.findSome?_singleton, ih, fault?, eval]
    cases operand.eval store <;> rfl

private theorem Expr.fault?_of_mem_parts {e part : Expr} {v : Value} (h : e.eval store = .ok v)
    (hpart : part ∈ e.parts) : part.fault? store = none := by
  have hnone : e.parts.findSome? (fault? store) = none := by
    rw [findSome?_fault?, h]
    rfl
  exact List.findSome?_eq_none_iff.mp hnone part hpart

end Machine

/-- The machine has carried out an expression as far as a part that is at fault, and there it stops;
no part before that one is at fault. -/
structure Expr.StopsAt (store : Store) (stack : List Value) (e : Expr) (before : List Expr)
    (part : Expr) (error : EvalError) : Prop where
  reached : ∃ after, e.parts = before ++ part :: after
  stopped : ∃ stack', Instruction.run store (before.map instruction) stack = .ok stack' ∧
    part.instruction.step store stack' = .error (.fault error)
  at_fault : part.fault? store = some error
  first : ∀ part' ∈ before, part'.fault? store = none

section Fault

open Instruction (run put)

variable {store : Store} {stack : List Value} {left right operand part : Expr} {op : BinaryOp}
  {sign : UnaryOp} {before : List Expr} {x y : Value} {error : EvalError}

namespace Expr

private theorem run_parts (h : left.eval store = .ok x) :
    run store (left.parts.map instruction) stack = .ok (x :: stack) := by
  have hrun : run store (left.parts.map instruction) stack = put stack (left.eval store) :=
    left.run_instructions
  rwa [h] at hrun

namespace StopsAt

private theorem extend {e e' : Expr} (h : e.StopsAt store stack before part error)
    (hparts : e.parts <+: e'.parts) : e'.StopsAt store stack before part error where
  reached := by
    obtain ⟨after, hafter⟩ := h.reached
    obtain ⟨rest, hrest⟩ := hparts
    exact ⟨after ++ rest, by rw [← hrest, hafter, List.append_assoc, List.cons_append]⟩
  stopped := h.stopped
  at_fault := h.at_fault
  first := h.first

private theorem ofRight (hleft : left.eval store = .ok x)
    (h : right.StopsAt store (x :: stack) before part error) :
    (binary left op right).StopsAt store stack (left.parts ++ before) part error where
  reached := by
    obtain ⟨after, hafter⟩ := h.reached
    refine ⟨after ++ [binary left op right], ?_⟩
    rw [parts, hafter]
    simp only [List.append_assoc, List.cons_append]
  stopped := by
    obtain ⟨stack', hrun, hstep⟩ := h.stopped
    refine ⟨stack', ?_, hstep⟩
    rw [List.map_append, Instruction.run_append, run_parts hleft]
    exact hrun
  at_fault := h.at_fault
  first := List.forall_mem_append.mpr ⟨fun _ => fault?_of_mem_parts hleft, h.first⟩

private theorem atOperator (hleft : left.eval store = .ok x) (hright : right.eval store = .ok y)
    (h : Value.apply op x y = .error error) :
    (binary left op right).StopsAt store stack (left.parts ++ right.parts)
      (binary left op right) error where
  reached := ⟨[], by rw [parts, List.append_assoc]⟩
  stopped := by
    refine ⟨y :: x :: stack, ?_, ?_⟩
    · rw [List.map_append, Instruction.run_append, run_parts hleft]
      exact run_parts hright
    · rw [instruction, Instruction.step, h, put]
  at_fault := by simp only [fault?, hleft, hright, h, EvalError.of?]
  first := List.forall_mem_append.mpr
    ⟨fun _ => fault?_of_mem_parts hleft, fun _ => fault?_of_mem_parts hright⟩

private theorem atSign (hoperand : operand.eval store = .ok x)
    (h : Value.applySign sign x = .error error) :
    (unary sign operand).StopsAt store stack operand.parts (unary sign operand) error where
  reached := ⟨[], by rw [parts]⟩
  stopped := ⟨x :: stack, run_parts hoperand, by
    rw [instruction, Instruction.step_sign, h, put]⟩
  at_fault := by simp only [fault?, hoperand, h, EvalError.of?]
  first := fun _ => fault?_of_mem_parts hoperand

private theorem run_eq {e : Expr} (h : e.StopsAt store stack before part error) :
    run store e.instructions stack = .error (.fault error) := by
  obtain ⟨after, hafter⟩ := h.reached
  obtain ⟨stack', hrun, hstep⟩ := h.stopped
  rw [instructions, hafter, List.map_append, List.map_cons, Instruction.run_append, hrun]
  change run store (part.instruction :: after.map instruction) stack' = _
  rw [Instruction.run_cons, hstep]
  rfl

private theorem eval_eq {e : Expr} (h : e.StopsAt store stack before part error) :
    e.eval store = .error error := by
  have hrun := h.run_eq
  rw [run_instructions] at hrun
  cases heval : e.eval store with
  | ok v =>
    rw [heval] at hrun
    cases hrun
  | error e =>
    rw [heval] at hrun
    cases hrun
    rfl

end StopsAt

/-- What is not evaluated is carried out as far as its first fault. By induction on the expression:
the left operand fails, or the right one does behind it, or both have values and the operation has
no result. -/
private theorem exists_stopsAt {e : Expr} (h : e.eval store = .error error) :
    ∃ before part, e.StopsAt store stack before part error := by
  induction e generalizing stack with
  | integer n => cases h
  | real x => cases h
  | var name =>
    have hnone : store.get? name = none := by
      rw [eval] at h
      cases hname : store.get? name with
      | none => rfl
      | some v =>
        rw [hname] at h
        cases h
    rw [eval, hnone] at h
    cases h
    refine ⟨[], .var name, ⟨⟨[], rfl⟩, ⟨stack, rfl, ?_⟩, ?_, List.forall_mem_nil _⟩⟩
    · rw [instruction, Instruction.step, hnone]
    · rw [fault?, hnone]
      rfl
  | binary left op right ihl ihr =>
    cases hleft : left.eval store with
    | error e =>
      rw [eval, hleft] at h
      cases h
      obtain ⟨before, part, hstop⟩ := ihl hleft
      exact ⟨before, part, hstop.extend (List.prefix_append _ _)⟩
    | ok x =>
      cases hright : right.eval store with
      | error e =>
        rw [eval, hleft, hright] at h
        cases h
        obtain ⟨before, part, hstop⟩ := ihr hright
        exact ⟨_, part, hstop.ofRight hleft⟩
      | ok y =>
        rw [eval, hleft, hright] at h
        exact ⟨_, _, .atOperator hleft hright h⟩
  | unary sign operand ih =>
    cases hoperand : operand.eval store with
    | error e =>
      rw [eval, hoperand] at h
      cases h
      obtain ⟨before, part, hstop⟩ := ih hoperand
      exact ⟨before, part, hstop.extend (List.prefix_append _ _)⟩
    | ok x =>
      rw [eval, hoperand] at h
      exact ⟨_, _, .atSign hoperand h⟩

/-- Evaluating an expression is carrying out its postfix form: the stack machine ends with the value
as the only one on its stack, or it stops with the error. What is reported is the first fault there
is; everything before it has been carried out, and whatever an operator would say to its operands,
a fault in the right one is reported when the left one has a value. -/
theorem evaluates_in_postorder (store : Store) (e : Expr) :
    run store e.instructions [] =
      (match e.eval store with
      | .ok v => .ok [v]
      | .error error => .error (.fault error)) ∧
    e.parts.findSome? (fault? store) = EvalError.of? (e.eval store) ∧
    (∀ error, e.eval store = .error error ↔
      ∃ before part, e.StopsAt store [] before part error) ∧
    ∀ left op right error, (∃ x, left.eval store = .ok x) → right.eval store = .error error →
      eval store (.binary left op right) = .error error := by
  refine ⟨?_, e.findSome?_fault?, fun error => ⟨exists_stopsAt, ?_⟩, ?_⟩
  · rw [run_instructions]
    cases e.eval store <;> rfl
  · rintro ⟨before, part, hstop⟩
    exact hstop.eval_eq
  · rintro left op right error ⟨x, hleft⟩ hright
    rw [eval, hleft, hright]
    rfl

/-- There is no `b`; neither the division by zero behind it nor the one around it is reported. -/
theorem undefined_before_division :
    let store := Store.empty.put "a" (.integer 1)
    let right : Expr := .binary (.var "b") .multiply (.binary (.integer 1) .div (.integer 0))
    let e : Expr := .binary (.var "a") .div (.binary (.integer 0) .multiply right)
    e.eval store = .error (.undefined "b") ∧
      run store e.instructions [] = .error (.fault (.undefined "b")) ∧
      ∃ before, e.StopsAt store [] before (.var "b") (.undefined "b") := by
  intro store right e
  have hright : right.eval store = .error (.undefined "b") := rfl
  have hproduct : Expr.eval store (.binary (.integer 0) .multiply right) =
      .error (.undefined "b") :=
    (evaluates_in_postorder store e).2.2.2 _ _ _ _ ⟨_, rfl⟩ hright
  have heval : e.eval store = .error (.undefined "b") :=
    (evaluates_in_postorder store e).2.2.2 _ _ _ _ ⟨.integer 1, rfl⟩ hproduct
  have hrun := (evaluates_in_postorder store e).1
  rw [heval] at hrun
  exact ⟨heval, hrun, [.var "a", .integer 0], ⟨_, rfl⟩, ⟨_, rfl, rfl⟩, rfl, by decide⟩

end Expr

end Fault

end MiniPascal
