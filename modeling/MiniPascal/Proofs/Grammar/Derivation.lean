import MiniPascal.Grammar.Program

/-!
The grammar. A derivation has a node for each rule that was used; it spells a row of tokens, it
stands for a tree, and each of its nodes lies at some depth.
-/

set_option autoImplicit false
set_option relaxedAutoImplicit false

namespace MiniPascal

inductive SumOp
  | plus | minus
  deriving DecidableEq

inductive ProductOp
  | star | slash | div
  deriving DecidableEq

/-- Derivations by the rule at their root. A pair of a first item and others is a row that is not
empty; names, numbers and operators are kept, all other tokens go without saying. -/
inductive Derivation : Rule → Type
  | program (name : String) (body : Derivation .block) : Derivation .program
  | block (declarations : Derivation .declarations) (body : Derivation .compoundStatement) :
      Derivation .block
  | declarations (groups : List (Derivation .varDeclaration × List (Derivation .varDeclaration)))
      (procedures : List (Derivation .procedureDeclaration)) : Derivation .declarations
  | varDeclaration (first : String) (others : List String) (type : Derivation .typeSpec) :
      Derivation .varDeclaration
  | procedureDeclaration (name : String) (body : Derivation .block) :
      Derivation .procedureDeclaration
  | integerType : Derivation .typeSpec
  | realType : Derivation .typeSpec
  | compoundStatement (body : Derivation .statementList) : Derivation .compoundStatement
  | statementList (first : Derivation .statement) (others : List (Derivation .statement)) :
      Derivation .statementList
  | compound (body : Derivation .compoundStatement) : Derivation .statement
  | assignment (body : Derivation .assignmentStatement) : Derivation .statement
  | empty : Derivation .statement
  | assignmentStatement (target : String) (value : Derivation .expr) :
      Derivation .assignmentStatement
  | expr (first : Derivation .term) (others : List (SumOp × Derivation .term)) : Derivation .expr
  | term (first : Derivation .factor) (others : List (ProductOp × Derivation .factor)) :
      Derivation .term
  | signed (op : UnaryOp) (operand : Derivation .factor) : Derivation .factor
  | integer (n : Int64) : Derivation .factor
  | real (x : Binary64) : Derivation .factor
  | parens (body : Derivation .expr) : Derivation .factor
  | var (name : String) : Derivation .factor

namespace SumOp

def token : SumOp → TokenKind
  | .plus => .mark .plus
  | .minus => .mark .minus

def op : SumOp → BinaryOp
  | .plus => .add
  | .minus => .subtract

end SumOp

namespace ProductOp

def token : ProductOp → TokenKind
  | .star => .mark .star
  | .slash => .mark .slash
  | .div => .reserved .div

def op : ProductOp → BinaryOp
  | .star => .multiply
  | .slash => .divide
  | .div => .div

end ProductOp

def UnaryOp.token : UnaryOp → TokenKind
  | .plus => .mark .plus
  | .minus => .mark .minus

abbrev Rule.Tree : Rule → Type
  | .program => Program
  | .block => List Declaration × List Statement
  | .declarations | .varDeclaration => List Declaration
  | .procedureDeclaration => Declaration
  | .typeSpec => String
  | .compoundStatement | .statementList => List Statement
  | .statement | .assignmentStatement => Statement
  | .expr | .term | .factor => Expr

namespace Derivation

section Size

variable {α β : Type} [SizeOf α] [SizeOf β] {pairs : List (α × β)} {pair : α × β}

private theorem sizeOf_fst_lt (h : pair ∈ pairs) : sizeOf pair.1 < sizeOf pairs := by
  have hlt := List.sizeOf_lt_of_mem h
  obtain ⟨a, b⟩ := pair
  simp only [Prod.mk.sizeOf_spec] at hlt ⊢
  omega

private theorem sizeOf_snd_lt (h : pair ∈ pairs) : sizeOf pair.2 < sizeOf pairs := by
  have hlt := List.sizeOf_lt_of_mem h
  obtain ⟨a, b⟩ := pair
  simp only [Prod.mk.sizeOf_spec] at hlt ⊢
  omega

private theorem sizeOf_lt_of_mem_snd {pairs : List (α × List β)} {pair : α × List β} {b : β}
    (h : pair ∈ pairs) (hb : b ∈ pair.2) : sizeOf b < sizeOf pairs :=
  Nat.lt_trans (List.sizeOf_lt_of_mem hb) (sizeOf_snd_lt h)

end Size

def yield {r : Rule} : Derivation r → List TokenKind
  | .program name body =>
    .reserved .program :: .identifier name :: .mark .semicolon :: (body.yield ++ [.mark .dot])
  | .block ds body => ds.yield ++ body.yield
  | .declarations groups procedures =>
    (groups.flatMap fun g => .reserved .var :: (g.1.yield ++ [.mark .semicolon] ++
      g.2.flatMap fun d => d.yield ++ [.mark .semicolon])) ++ procedures.flatMap fun p => p.yield
  | .varDeclaration first others type =>
    .identifier first :: ((others.flatMap fun name => [.mark .comma, .identifier name]) ++
      [.mark .colon] ++ type.yield)
  | .procedureDeclaration name body =>
    .reserved .procedure :: .identifier name :: .mark .semicolon ::
      (body.yield ++ [.mark .semicolon])
  | .integerType => [.reserved .integer]
  | .realType => [.reserved .real]
  | .compoundStatement body => .reserved .blockBegin :: (body.yield ++ [.reserved .blockEnd])
  | .statementList first others =>
    first.yield ++ others.flatMap fun s => .mark .semicolon :: s.yield
  | .compound body => body.yield
  | .assignment body => body.yield
  | .empty => []
  | .assignmentStatement target value => .identifier target :: .mark .assign :: value.yield
  | .expr first others => first.yield ++ others.flatMap fun o => o.1.token :: o.2.yield
  | .term first others => first.yield ++ others.flatMap fun o => o.1.token :: o.2.yield
  | .signed op operand => op.token :: operand.yield
  | .integer n => [.integer n]
  | .real x => [.real x]
  | .parens body => .mark .leftParen :: (body.yield ++ [.mark .rightParen])
  | .var name => [.identifier name]
termination_by d => sizeOf d
decreasing_by
  all_goals simp_wf
  all_goals first
    | omega
    | (have h := sizeOf_fst_lt ‹_ ∈ groups›; omega)
    | (have h := sizeOf_lt_of_mem_snd ‹_ ∈ groups› ‹_›; omega)
    | (have h := List.sizeOf_lt_of_mem ‹_›; omega)
    | (have h := sizeOf_snd_lt ‹_ ∈ others›; omega)

/-- The rules that were used and the depths at which, the root lying at the given one. A node lies
one deeper than the node above it. -/
def nodes {r : Rule} (depth : Nat) : Derivation r → List (Rule × Nat)
  | .program _ body => (r, depth) :: body.nodes (depth + 1)
  | .block ds body => (r, depth) :: (ds.nodes (depth + 1) ++ body.nodes (depth + 1))
  | .declarations groups procedures =>
    (r, depth) :: ((groups.flatMap fun g => g.1.nodes (depth + 1) ++
      g.2.flatMap fun d => d.nodes (depth + 1)) ++ procedures.flatMap fun p => p.nodes (depth + 1))
  | .varDeclaration _ _ type => (r, depth) :: type.nodes (depth + 1)
  | .procedureDeclaration _ body => (r, depth) :: body.nodes (depth + 1)
  | .integerType | .realType => [(r, depth)]
  | .compoundStatement body => (r, depth) :: body.nodes (depth + 1)
  | .statementList first others =>
    (r, depth) :: (first.nodes (depth + 1) ++ others.flatMap fun s => s.nodes (depth + 1))
  | .compound body => (r, depth) :: body.nodes (depth + 1)
  | .assignment body => (r, depth) :: body.nodes (depth + 1)
  | .empty => [(r, depth)]
  | .assignmentStatement _ value => (r, depth) :: value.nodes (depth + 1)
  | .expr first others =>
    (r, depth) :: (first.nodes (depth + 1) ++ others.flatMap fun o => o.2.nodes (depth + 1))
  | .term first others =>
    (r, depth) :: (first.nodes (depth + 1) ++ others.flatMap fun o => o.2.nodes (depth + 1))
  | .signed _ operand => (r, depth) :: operand.nodes (depth + 1)
  | .integer _ | .real _ | .var _ => [(r, depth)]
  | .parens body => (r, depth) :: body.nodes (depth + 1)
termination_by d => sizeOf d
decreasing_by
  all_goals simp_wf
  all_goals first
    | omega
    | (have h := sizeOf_fst_lt ‹_ ∈ groups›; omega)
    | (have h := sizeOf_lt_of_mem_snd ‹_ ∈ groups› ‹_›; omega)
    | (have h := List.sizeOf_lt_of_mem ‹_›; omega)
    | (have h := sizeOf_snd_lt ‹_ ∈ others›; omega)

/-- The tree of a derivation. Variables that share a type are declared one by one, operators of one
level group from the left, parentheses leave no trace, and where no statement stands is the empty
one. -/
def tree {r : Rule} : Derivation r → r.Tree
  | .program name body => ⟨name, body.tree.1, body.tree.2⟩
  | .block ds body => (ds.tree, body.tree)
  | .declarations groups procedures =>
    (groups.flatMap fun g => g.1.tree ++ g.2.flatMap fun d => d.tree) ++
      procedures.map fun p => p.tree
  | .varDeclaration first others type => (first :: others).map (.var · type.tree)
  | .procedureDeclaration name body => .procedure name body.tree.1 body.tree.2
  | .integerType => Reserved.integer.text
  | .realType => Reserved.real.text
  | .compoundStatement body => body.tree
  | .statementList first others => first.tree :: others.map fun s => s.tree
  | .compound body => .compound body.tree
  | .assignment body => body.tree
  | .empty => .skip
  | .assignmentStatement target value => .assign target value.tree
  | .expr first others =>
    (others.map fun o => (o.1.op, o.2.tree)).foldl
      (fun left other => .binary left other.1 other.2) first.tree
  | .term first others =>
    (others.map fun o => (o.1.op, o.2.tree)).foldl
      (fun left other => .binary left other.1 other.2) first.tree
  | .signed op operand => .unary op operand.tree
  | .integer n => .integer n
  | .real x => .real x
  | .parens body => body.tree
  | .var name => .var name
termination_by d => sizeOf d
decreasing_by
  all_goals simp_wf
  all_goals first
    | omega
    | (have h := sizeOf_fst_lt ‹_ ∈ groups›; omega)
    | (have h := sizeOf_lt_of_mem_snd ‹_ ∈ groups› ‹_›; omega)
    | (have h := List.sizeOf_lt_of_mem ‹_›; omega)
    | (have h := sizeOf_snd_lt ‹_ ∈ others›; omega)

/-- Induction over the nodes of a derivation, from the leaves up. -/
@[induction_eliminator]
theorem nodeInduction {motive : (r : Rule) → Derivation r → Prop}
    (program : ∀ name body, motive .block body → motive .program (.program name body))
    (block : ∀ ds body, motive .declarations ds → motive .compoundStatement body →
      motive .block (.block ds body))
    (declarations : ∀ groups procedures, (∀ g ∈ groups, motive .varDeclaration g.1) →
      (∀ g ∈ groups, ∀ d ∈ g.2, motive .varDeclaration d) →
      (∀ p ∈ procedures, motive .procedureDeclaration p) →
      motive .declarations (.declarations groups procedures))
    (varDeclaration : ∀ first others type, motive .typeSpec type →
      motive .varDeclaration (.varDeclaration first others type))
    (procedureDeclaration : ∀ name body, motive .block body →
      motive .procedureDeclaration (.procedureDeclaration name body))
    (integerType : motive .typeSpec .integerType) (realType : motive .typeSpec .realType)
    (compoundStatement : ∀ body, motive .statementList body →
      motive .compoundStatement (.compoundStatement body))
    (statementList : ∀ first others, motive .statement first →
      (∀ s ∈ others, motive .statement s) → motive .statementList (.statementList first others))
    (compound : ∀ body, motive .compoundStatement body → motive .statement (.compound body))
    (assignment : ∀ body, motive .assignmentStatement body → motive .statement (.assignment body))
    (empty : motive .statement .empty)
    (assignmentStatement : ∀ target value, motive .expr value →
      motive .assignmentStatement (.assignmentStatement target value))
    (expr : ∀ first others, motive .term first → (∀ o ∈ others, motive .term o.2) →
      motive .expr (.expr first others))
    (term : ∀ first others, motive .factor first → (∀ o ∈ others, motive .factor o.2) →
      motive .term (.term first others))
    (signed : ∀ op operand, motive .factor operand → motive .factor (.signed op operand))
    (integer : ∀ n, motive .factor (.integer n)) (real : ∀ x, motive .factor (.real x))
    (parens : ∀ body, motive .expr body → motive .factor (.parens body))
    (var : ∀ name, motive .factor (.var name)) {r : Rule} (d : Derivation r) :
    motive r d :=
  yield.induct motive program block declarations varDeclaration procedureDeclaration integerType
    realType compoundStatement statementList compound assignment empty assignmentStatement expr term
    signed integer real parens var r d

end Derivation

def Rule.bounded : Rule → Bool
  | .procedureDeclaration | .compoundStatement | .factor => true
  | _ => false

namespace Derivation

/-- With its root at the given depth no bounded rule of a derivation lies too deep. -/
def Within {r : Rule} (depth : Nat) (d : Derivation r) : Prop :=
  ∀ node ∈ d.nodes depth, node.1.bounded = true → node.2 ≤ Rule.limit

section Within

variable {n : Nat}

@[simp] theorem within_program {name : String} {body : Derivation .block} :
    (program name body).Within n ↔ body.Within (n + 1) := by
  simp [Within, nodes, Rule.bounded]

@[simp] theorem within_block {ds : Derivation .declarations}
    {body : Derivation .compoundStatement} :
    (block ds body).Within n ↔ ds.Within (n + 1) ∧ body.Within (n + 1) := by
  simp [Within, nodes, Rule.bounded, or_imp, forall_and]

@[simp] theorem within_varDeclaration (d : Derivation .varDeclaration) : d.Within n := by
  cases d with
  | varDeclaration first others type => cases type <;> simp [Within, nodes, Rule.bounded]

@[simp] theorem within_declarations
    {groups : List (Derivation .varDeclaration × List (Derivation .varDeclaration))}
    {procedures : List (Derivation .procedureDeclaration)} :
    (declarations groups procedures).Within n ↔ ∀ p ∈ procedures, p.Within (n + 1) := by
  have types : ∀ d : Derivation .varDeclaration, ∀ node ∈ d.nodes (n + 1),
      node.1.bounded = true → node.2 ≤ Rule.limit := within_varDeclaration
  simp only [Within, nodes, List.forall_mem_cons, List.forall_mem_append, List.forall_mem_flatMap]
  constructor
  · intro h
    exact h.2.2
  · intro h
    exact ⟨by simp [Rule.bounded], fun g _ => ⟨types g.1, fun d _ => types d⟩, h⟩

@[simp] theorem within_procedureDeclaration {name : String} {body : Derivation .block} :
    (procedureDeclaration name body).Within n ↔ n ≤ Rule.limit ∧ body.Within (n + 1) := by
  simp [Within, nodes, Rule.bounded]

@[simp] theorem within_compoundStatement {body : Derivation .statementList} :
    (compoundStatement body).Within n ↔ n ≤ Rule.limit ∧ body.Within (n + 1) := by
  simp [Within, nodes, Rule.bounded]

@[simp] theorem within_statementList {first : Derivation .statement}
    {others : List (Derivation .statement)} :
    (statementList first others).Within n ↔
      first.Within (n + 1) ∧ ∀ s ∈ others, s.Within (n + 1) := by
  simp only [Within, nodes, List.forall_mem_cons, List.forall_mem_append, List.forall_mem_flatMap]
  simp [Rule.bounded]

@[simp] theorem within_compound {body : Derivation .compoundStatement} :
    (compound body).Within n ↔ body.Within (n + 1) := by
  simp [Within, nodes, Rule.bounded]

@[simp] theorem within_assignment {body : Derivation .assignmentStatement} :
    (assignment body).Within n ↔ body.Within (n + 1) := by
  simp [Within, nodes, Rule.bounded]

@[simp] theorem within_empty : empty.Within n := by
  simp [Within, nodes, Rule.bounded]

@[simp] theorem within_assignmentStatement {target : String} {value : Derivation .expr} :
    (assignmentStatement target value).Within n ↔ value.Within (n + 1) := by
  simp [Within, nodes, Rule.bounded]

@[simp] theorem within_expr {first : Derivation .term}
    {others : List (SumOp × Derivation .term)} :
    (expr first others).Within n ↔
      first.Within (n + 1) ∧ ∀ o ∈ others, o.2.Within (n + 1) := by
  simp only [Within, nodes, List.forall_mem_cons, List.forall_mem_append, List.forall_mem_flatMap]
  simp [Rule.bounded]

@[simp] theorem within_term {first : Derivation .factor}
    {others : List (ProductOp × Derivation .factor)} :
    (term first others).Within n ↔
      first.Within (n + 1) ∧ ∀ o ∈ others, o.2.Within (n + 1) := by
  simp only [Within, nodes, List.forall_mem_cons, List.forall_mem_append, List.forall_mem_flatMap]
  simp [Rule.bounded]

@[simp] theorem within_signed {op : UnaryOp} {operand : Derivation .factor} :
    (signed op operand).Within n ↔ n ≤ Rule.limit ∧ operand.Within (n + 1) := by
  simp [Within, nodes, Rule.bounded]

@[simp] theorem within_integer {w : Int64} : (integer w).Within n ↔ n ≤ Rule.limit := by
  simp [Within, nodes, Rule.bounded]

@[simp] theorem within_real {x : Binary64} : (real x).Within n ↔ n ≤ Rule.limit := by
  simp [Within, nodes, Rule.bounded]

@[simp] theorem within_parens {body : Derivation .expr} :
    (parens body).Within n ↔ n ≤ Rule.limit ∧ body.Within (n + 1) := by
  simp [Within, nodes, Rule.bounded]

@[simp] theorem within_var {name : String} : (var name).Within n ↔ n ≤ Rule.limit := by
  simp [Within, nodes, Rule.bounded]

end Within

end Derivation

end MiniPascal
