import Mathlib.Data.List.Chain
import MiniPascal.Grammar.Rule

/-!
Which stacks of open rules there can be. Each rule on a stack is called by the one below it, and a
rule that looks at the depth calls others only up to the limit. `Rule.Open.length_le_of_program` and
`Rule.Open.length_le_of_expr` say how far this lets a stack grow.
-/

set_option autoImplicit false
set_option relaxedAutoImplicit false

namespace MiniPascal

namespace Rule

inductive Calls : Rule → Rule → Prop
  | programBlock : Calls .program .block
  | blockDeclarations : Calls .block .declarations
  | blockBody : Calls .block .compoundStatement
  | declarationsVars : Calls .declarations .varDeclaration
  | declarationsProcedure : Calls .declarations .procedureDeclaration
  | varsType : Calls .varDeclaration .typeSpec
  | procedureBlock : Calls .procedureDeclaration .block
  | compoundList : Calls .compoundStatement .statementList
  | listStatement : Calls .statementList .statement
  | statementCompound : Calls .statement .compoundStatement
  | statementAssignment : Calls .statement .assignmentStatement
  | assignmentValue : Calls .assignmentStatement .expr
  | exprTerm : Calls .expr .term
  | termFactor : Calls .term .factor
  | factorSigned : Calls .factor .factor
  | factorParens : Calls .factor .expr

def limited : Rule → Bool
  | .procedureDeclaration | .compoundStatement | .factor => true
  | _ => false

/-- On top of the stack is a rule that looks at the depth and finds it past the limit. -/
def TooDeep : List Rule → Prop
  | [] => False
  | r :: below => r.limited = true ∧ limit < (r :: below).length

/-- The stacks of open rules, the innermost one first, when reading begins with a rule. A rule that
finds itself too deep calls no other one. -/
inductive Open (first : Rule) : List Rule → Prop
  | first : Open first [first]
  | call {r callee : Rule} {below : List Rule} (caller : Open first (r :: below))
      (passed : ¬ TooDeep (r :: below)) (called : r.Calls callee) :
      Open first (callee :: r :: below)

/-- The depths at which a rule can lie below `program`. Procedures and compounds come every third
rule, so the deepest ones that pass are not at the limit itself; below an assignment there are rules
at every depth. -/
def LiesInProgram : Rule → Nat → Prop
  | .program, depth => depth = 1
  | .block, depth => depth ≤ 512 ∧ depth % 3 = 2
  | .declarations, depth => depth ≤ 513 ∧ depth % 3 = 0
  | .varDeclaration, depth => depth ≤ 514 ∧ depth % 3 = 1
  | .procedureDeclaration, depth => depth ≤ 514 ∧ depth % 3 = 1
  | .typeSpec, depth => depth ≤ 515 ∧ depth % 3 = 2
  | .compoundStatement, depth => depth ≤ 513 ∧ depth % 3 = 0
  | .statementList, depth => depth ≤ 511 ∧ depth % 3 = 1
  | .statement, depth => depth ≤ 512 ∧ depth % 3 = 2
  | .assignmentStatement, depth => depth ≤ 513 ∧ depth % 3 = 0
  | .expr, depth => depth ≤ 514
  | .term, depth => depth ≤ 515
  | .factor, depth => depth ≤ 516

def LiesInExpr : Rule → Nat → Prop
  | .expr, depth => depth ≤ 513
  | .term, depth => depth ≤ 514
  | .factor, depth => depth ≤ 515
  | _, _ => False

section Depth

variable {first r callee : Rule} {below stack : List Rule} {depth : Nat}

theorem not_tooDeep_of_free (free : r.limited = false) : ¬ TooDeep (r :: below) := by
  rintro ⟨hlimited, -⟩
  rw [free] at hlimited
  cases hlimited

theorem not_tooDeep_of_length (h : (r :: below).length ≤ limit) : ¬ TooDeep (r :: below) :=
  fun hdeep => Nat.not_lt_of_le h hdeep.2

theorem length_le_of_not_tooDeep (h : ¬ TooDeep (r :: below)) (hlimited : r.limited = true) :
    (r :: below).length ≤ limit :=
  Nat.le_of_not_lt fun hdeep => h ⟨hlimited, hdeep⟩

private theorem LiesInProgram.call (h : r.LiesInProgram depth)
    (passed : r.limited = true → depth ≤ limit) (called : r.Calls callee) :
    callee.LiesInProgram (depth + 1) := by
  cases called <;>
    simp only [LiesInProgram, limited, limit, reduceCtorEq, false_imp_iff, true_imp_iff] at * <;>
    omega

private theorem LiesInExpr.call (h : r.LiesInExpr depth)
    (passed : r.limited = true → depth ≤ limit) (called : r.Calls callee) :
    callee.LiesInExpr (depth + 1) := by
  cases called <;>
    simp only [LiesInExpr, limited, limit, true_imp_iff] at * <;>
    omega

private theorem Open.liesInProgram (h : Open .program (r :: below)) :
    r.LiesInProgram (r :: below).length := by
  generalize hstack : r :: below = stack at h
  induction h generalizing r below with
  | first =>
    cases hstack
    rfl
  | call _ passed called ih =>
    cases hstack
    exact (ih rfl).call (length_le_of_not_tooDeep passed) called

private theorem Open.liesInExpr (h : Open .expr (r :: below)) :
    r.LiesInExpr (r :: below).length := by
  generalize hstack : r :: below = stack at h
  induction h generalizing r below with
  | first =>
    cases hstack
    exact Nat.le_of_ble_eq_true rfl
  | call _ passed called ih =>
    cases hstack
    exact (ih rfl).call (length_le_of_not_tooDeep passed) called

theorem Open.length_le_of_program (h : Open .program stack) : stack.length ≤ 516 := by
  cases stack with
  | nil => exact Nat.zero_le _
  | cons r below =>
    have hlies := h.liesInProgram
    cases r <;> simp only [LiesInProgram] at hlies <;> omega

theorem Open.length_le_of_expr (h : Open .expr stack) : stack.length ≤ 515 := by
  cases stack with
  | nil => exact Nat.zero_le _
  | cons r below =>
    have hlies := h.liesInExpr
    cases r <;> simp only [LiesInExpr] at hlies <;> omega

end Depth

section Context

variable {first r callee : Rule} {below stack : List Rule}

theorem Open.call_of_free (caller : Open first (r :: below)) (called : r.Calls callee)
    (free : r.limited = false) : Open first (callee :: r :: below) :=
  caller.call (not_tooDeep_of_free free) called

theorem Open.call_of_length (caller : Open first (r :: below)) (called : r.Calls callee)
    (hlimit : (r :: below).length ≤ limit) : Open first (callee :: r :: below) :=
  caller.call (not_tooDeep_of_length hlimit) called

theorem Open.ne_nil (h : Open first stack) : stack ≠ [] := by
  cases h <;> exact List.cons_ne_nil _ _

theorem Open.head?_reverse (h : Open first stack) : stack.reverse.head? = some first := by
  rw [List.head?_reverse]
  induction h with
  | first => rfl
  | call _ _ _ ih => rwa [List.getLast?_cons_cons]

theorem Open.isChain_reverse (h : Open first stack) : stack.reverse.IsChain Calls := by
  rw [List.isChain_reverse]
  induction h with
  | first => exact .singleton _
  | call _ _ called ih => exact .cons_cons called ih

end Context

end Rule

end MiniPascal
