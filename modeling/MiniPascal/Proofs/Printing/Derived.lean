import MiniPascal.Proofs.Grammar.Derivation
import MiniPascal.Proofs.Printing.WellFormed

/-!
The derivation of a printed tree, and how deep its parts lie. Printing puts parentheses around every
operation, so the depth of an expression in the text is another one than its depth as a tree.
-/

set_option autoImplicit false
set_option relaxedAutoImplicit false

namespace MiniPascal

def BinaryOp.token : BinaryOp → TokenKind
  | .add => .mark .plus
  | .subtract => .mark .minus
  | .multiply => .mark .star
  | .divide => .mark .slash
  | .div => .reserved .div

namespace Derivation

def ofFactor (d : Derivation .factor) : Derivation .expr := .expr (.term d []) []

def joined (l : Derivation .factor) (op : BinaryOp) (r : Derivation .factor) : Derivation .expr :=
  match op with
  | .add => .expr (.term l []) [(.plus, .term r [])]
  | .subtract => .expr (.term l []) [(.minus, .term r [])]
  | .multiply => .expr (.term l [(.star, r)]) []
  | .divide => .expr (.term l [(.slash, r)]) []
  | .div => .expr (.term l [(.div, r)]) []

/-- A list of statements; the empty list is written like one empty statement. -/
def ofStatements : List (Derivation .statement) → Derivation .statementList
  | [] => .statementList .empty []
  | d :: ds => .statementList d ds

variable {n : Nat}

@[simp] theorem yield_ofFactor (d : Derivation .factor) : (ofFactor d).yield = d.yield := by
  simp [ofFactor, yield]

@[simp] theorem tree_ofFactor (d : Derivation .factor) : (ofFactor d).tree = d.tree := by
  simp [ofFactor, tree]

@[simp] theorem within_ofFactor (d : Derivation .factor) :
    (ofFactor d).Within n ↔ d.Within (n + 2) := by
  simp [ofFactor]

@[simp] theorem yield_joined (l r : Derivation .factor) (op : BinaryOp) :
    (joined l op r).yield = l.yield ++ op.token :: r.yield := by
  cases op <;> simp [joined, yield, SumOp.token, ProductOp.token, BinaryOp.token]

@[simp] theorem tree_joined (l r : Derivation .factor) (op : BinaryOp) :
    (joined l op r).tree = .binary l.tree op r.tree := by
  cases op <;> simp [joined, tree, SumOp.op, ProductOp.op]

@[simp] theorem within_joined (l r : Derivation .factor) (op : BinaryOp) :
    (joined l op r).Within n ↔ l.Within (n + 2) ∧ r.Within (n + 2) := by
  cases op <;> simp [joined]

@[simp] theorem within_ofStatements (ds : List (Derivation .statement)) :
    (ofStatements ds).Within n ↔ ∀ d ∈ ds, d.Within (n + 1) := by
  cases ds <;> simp [ofStatements]

private theorem tree_ofStatements {ds : List (Derivation .statement)} (h : ds ≠ []) :
    (ofStatements ds).tree = ds.map tree := by
  cases ds with
  | nil => exact absurd rfl h
  | cons d ds => rw [ofStatements, tree]; rfl

private theorem Within.le_limit {d : Derivation .factor} (h : d.Within n) : n ≤ Rule.limit := by
  cases d <;> simp only [within_signed, within_integer, within_real, within_parens, within_var] at h
    <;> omega

end Derivation

namespace Expr

def derivation : Expr → Derivation .factor
  | .integer n => .integer n
  | .real x => if x.negative then .signed .minus (.real x.negate) else .real x
  | .var name => .var name
  | .binary l op r => .parens (.joined l.derivation op r.derivation)
  | .unary op e => .parens (.ofFactor (.signed op e.derivation))

/-- The depths of the parts of a printed expression that lies at a depth itself. -/
def printedDepths (depth : Nat) : Expr → List Nat
  | .integer _ | .real _ | .var _ => [depth]
  | .binary l _ r => depth :: (l.printedDepths (depth + 3) ++ r.printedDepths (depth + 3))
  | .unary _ e => depth :: e.printedDepths (depth + 4)

private theorem tree_derivation {e : Expr} (h : e.Fits Binary64.Literal) :
    e.derivation.tree = e := by
  induction e with
  | integer n => rw [derivation, Derivation.tree]
  | real x =>
    have hpositive : x.negative = false := h.2
    rw [derivation, hpositive, if_neg Bool.false_ne_true, Derivation.tree]
  | var name => rw [derivation, Derivation.tree]
  | binary l op r ihl ihr =>
    rw [derivation, Derivation.tree, Derivation.tree_joined, ihl h.1, ihr h.2]
  | unary op e ih =>
    rw [derivation, Derivation.tree, Derivation.tree_ofFactor, Derivation.tree, ih h]

/-- Reading a tree back gives an equal one only where no literal has a sign. -/
private theorem fits_of_same_derivation {e : Expr} (h : e.Fits Binary64.Finite)
    (hsame : e.derivation.tree.same e = true) : e.Fits Binary64.Literal := by
  induction e with
  | integer n => exact h
  | real x =>
    cases hnegative : x.negative with
    | false => exact ⟨h, hnegative⟩
    | true =>
      rw [derivation, hnegative, if_pos rfl, Derivation.tree] at hsame
      cases hsame
  | var name => exact h
  | binary l op r ihl ihr =>
    rw [derivation, Derivation.tree, Derivation.tree_joined] at hsame
    simp only [same, Bool.and_eq_true] at hsame
    exact ⟨ihl h.1 hsame.1.1, ihr h.2 hsame.2⟩
  | unary op e ih =>
    rw [derivation, Derivation.tree, Derivation.tree_ofFactor, Derivation.tree] at hsame
    simp only [same, Bool.and_eq_true] at hsame
    exact ih h hsame.2

private theorem within_derivation {e : Expr} (h : e.Fits Binary64.Literal) (n : Nat) :
    e.derivation.Within n ↔ ∀ depth ∈ e.printedDepths n, depth ≤ Rule.limit := by
  induction e generalizing n with
  | integer w => simp [derivation, printedDepths]
  | real x =>
    have hpositive : x.negative = false := h.2
    simp [derivation, printedDepths, hpositive]
  | var name => simp [derivation, printedDepths]
  | binary l op r ihl ihr =>
    simp only [derivation, printedDepths, Derivation.within_parens, Derivation.within_joined,
      List.forall_mem_cons, List.forall_mem_append, ihl h.1, ihr h.2]
  | unary op e ih =>
    simp only [derivation, printedDepths, Derivation.within_parens, Derivation.within_ofFactor,
      Derivation.within_signed, List.forall_mem_cons, ← ih h]
    constructor
    · rintro ⟨hn, -, hoperand⟩
      exact ⟨hn, hoperand⟩
    · rintro ⟨hn, hoperand⟩
      have hdeeper := hoperand.le_limit
      exact ⟨hn, by omega, hoperand⟩

end Expr

mutual

def Statement.derivation : Statement → Derivation .statement
  | .compound body => .compound (.compoundStatement (.ofStatements (Statement.derivations body)))
  | .assign target value =>
    .assignment (.assignmentStatement target (.ofFactor value.derivation))
  | .skip => .empty

def Statement.derivations : List Statement → List (Derivation .statement)
  | [] => []
  | s :: ss => s.derivation :: Statement.derivations ss

end

mutual

def Statement.printedDepths (depth : Nat) : Statement → List Nat
  | .compound body => (depth + 3) :: Statement.printedDepthsAll (depth + 3) body
  | .assign _ value => value.printedDepths (depth + 6)
  | .skip => []

def Statement.printedDepthsAll (depth : Nat) : List Statement → List Nat
  | [] => []
  | s :: ss => s.printedDepths depth ++ Statement.printedDepthsAll depth ss

end

namespace Statement

def bodyDerivation (body : List Statement) : Derivation .compoundStatement :=
  .compoundStatement (.ofStatements (derivations body))

def bodyDepths (depth : Nat) (body : List Statement) : List Nat :=
  depth :: printedDepthsAll depth body

theorem derivations_eq (ss : List Statement) : derivations ss = ss.map derivation := by
  induction ss with
  | nil => rfl
  | cons s ss ih => rw [derivations, ih, List.map_cons]

private theorem printedDepthsAll_eq (depth : Nat) (ss : List Statement) :
    printedDepthsAll depth ss = ss.flatMap (printedDepths depth) := by
  induction ss with
  | nil => rfl
  | cons s ss ih => rw [printedDepthsAll, ih, List.flatMap_cons]

private theorem tree_compound {body : List Statement} (h : body ≠ []) :
    (Statement.compound body).derivation.tree =
      .compound (body.map fun s => s.derivation.tree) := by
  have hne : derivations body ≠ [] := by simpa [derivations_eq] using h
  rw [derivation, Derivation.tree, Derivation.tree, Derivation.tree_ofStatements hne,
    derivations_eq, List.map_map]
  rfl

private theorem tree_derivation {s : Statement} (h : s.Fits Binary64.Literal) :
    s.derivation.tree = s := by
  induction h with
  | @compound body some_statement each ih =>
    have hmap : (body.map fun s => s.derivation.tree) = body.map id := List.map_congr_left ih
    rw [tree_compound some_statement, hmap, List.map_id]
  | assign target_name value_fits =>
    rw [derivation, Derivation.tree, Derivation.tree, Derivation.tree_ofFactor,
      Expr.tree_derivation value_fits]
  | skip => rw [derivation, Derivation.tree]

private theorem fits_of_same_derivation {s : Statement} (h : s.Fits Binary64.Finite)
    (hsame : s.derivation.tree.same s = true) : s.Fits Binary64.Literal := by
  induction h with
  | compound some_statement each ih =>
    rw [tree_compound some_statement, same, sameAll_iff, List.forall₂_map_left_iff,
      List.forall₂_same] at hsame
    exact .compound some_statement fun s hs => ih s hs (hsame s hs)
  | assign target_name value_fits =>
    rw [derivation, Derivation.tree, Derivation.tree, Derivation.tree_ofFactor] at hsame
    simp only [same, Bool.and_eq_true] at hsame
    exact .assign target_name (Expr.fits_of_same_derivation value_fits hsame.2)
  | skip => exact .skip

private theorem within_body_of {body : List Statement}
    (h : ∀ s ∈ body, ∀ depth, s.derivation.Within (depth + 2) ↔
      ∀ k ∈ s.printedDepths depth, k ≤ Rule.limit) (depth : Nat) :
    (bodyDerivation body).Within depth ↔ ∀ k ∈ bodyDepths depth body, k ≤ Rule.limit := by
  simp only [bodyDerivation, bodyDepths, Derivation.within_compoundStatement,
    Derivation.within_ofStatements, derivations_eq, printedDepthsAll_eq, List.forall_mem_cons,
    List.forall_mem_map, List.forall_mem_flatMap]
  exact and_congr Iff.rfl (forall₂_congr fun s hs => h s hs depth)

private theorem within_derivation {s : Statement} (h : s.Fits Binary64.Literal) (depth : Nat) :
    s.derivation.Within (depth + 2) ↔ ∀ k ∈ s.printedDepths depth, k ≤ Rule.limit := by
  induction h generalizing depth with
  | compound some_statement each ih =>
    rw [derivation, Derivation.within_compound]
    exact within_body_of ih (depth + 3)
  | assign target_name value_fits =>
    simp only [derivation, printedDepths, Derivation.within_assignment,
      Derivation.within_assignmentStatement, Derivation.within_ofFactor,
      Expr.within_derivation value_fits]
  | skip => simp [derivation, printedDepths]

section Body

variable {body : List Statement}

private theorem tree_bodyDerivation (h : (Statement.compound body).Fits Binary64.Literal) :
    (bodyDerivation body).tree = body := by
  have htree := tree_derivation h
  rw [derivation, Derivation.tree] at htree
  exact Statement.compound.inj htree

private theorem fits_of_sameAll_bodyDerivation (h : (Statement.compound body).Fits Binary64.Finite)
    (hsame : sameAll (bodyDerivation body).tree body = true) :
    (Statement.compound body).Fits Binary64.Literal := by
  apply fits_of_same_derivation h
  rw [derivation, Derivation.tree]
  exact hsame

private theorem within_bodyDerivation (h : (Statement.compound body).Fits Binary64.Literal)
    (depth : Nat) :
    (bodyDerivation body).Within depth ↔ ∀ k ∈ bodyDepths depth body, k ≤ Rule.limit := by
  cases h with
  | compound some_statement each =>
    exact within_body_of (fun s hs => within_derivation (each s hs)) depth

end Body

end Statement

namespace Declaration

/-- Each variable is printed with a `VAR` of its own. -/
def group? : Declaration → Option (Derivation .varDeclaration × List (Derivation .varDeclaration))
  | .var name type =>
    some (.varDeclaration name []
      (if type = Reserved.real.text then .realType else .integerType), [])
  | .procedure _ _ _ => none

end Declaration

mutual

def Declaration.derivation? : Declaration → Option (Derivation .procedureDeclaration)
  | .var _ _ => none
  | .procedure name ds body =>
    some (.procedureDeclaration name (.block
      (.declarations (ds.filterMap Declaration.group?) (Declaration.derivations ds))
      (Statement.bodyDerivation body)))

def Declaration.derivations : List Declaration → List (Derivation .procedureDeclaration)
  | [] => []
  | d :: ds => d.derivation?.toList ++ Declaration.derivations ds

end

mutual

def Declaration.printedDepths (depth : Nat) : Declaration → List Nat
  | .var _ _ => []
  | .procedure _ ds body =>
    depth :: (Declaration.printedDepthsAll (depth + 3) ds ++ Statement.bodyDepths (depth + 2) body)

def Declaration.printedDepthsAll (depth : Nat) : List Declaration → List Nat
  | [] => []
  | d :: ds => d.printedDepths depth ++ Declaration.printedDepthsAll depth ds

end

namespace Declaration

def rowDerivation (ds : List Declaration) : Derivation .declarations :=
  .declarations (ds.filterMap group?) (derivations ds)

private theorem derivations_eq (ds : List Declaration) :
    derivations ds = ds.filterMap derivation? := by
  induction ds with
  | nil => rfl
  | cons d ds ih =>
    rw [derivations, ih]
    cases hd : d.derivation? with
    | none => rw [List.filterMap_cons_none hd]; rfl
    | some p => rw [List.filterMap_cons_some hd]; rfl

private theorem printedDepthsAll_eq (depth : Nat) (ds : List Declaration) :
    printedDepthsAll depth ds = ds.flatMap (printedDepths depth) := by
  induction ds with
  | nil => rfl
  | cons d ds ih => rw [printedDepthsAll, ih, List.flatMap_cons]

section Row

variable {name type : String} {ds ds' : List Declaration} {body : List Statement}

private theorem row_var :
    rowDerivation (.var name type :: ds) = .declarations
      ((.varDeclaration name []
          (if type = Reserved.real.text then .realType else .integerType), []) ::
        ds.filterMap group?) (derivations ds) :=
  rfl

private theorem row_procedures (procedures : ∀ d ∈ ds, d.isVar = false) :
    rowDerivation ds = .declarations [] (derivations ds) := by
  have hgroups : ds.filterMap group? = [] := by
    refine List.filterMap_eq_nil_iff.mpr fun d hd => ?_
    have hvar := procedures d hd
    cases d with
    | var name type => cases hvar
    | procedure name ds body => rfl
  rw [rowDerivation, hgroups]

private theorem row_procedure (procedures : ∀ d ∈ ds, d.isVar = false) :
    rowDerivation (.procedure name ds' body :: ds) = .declarations []
      (.procedureDeclaration name (.block (rowDerivation ds') (Statement.bodyDerivation body)) ::
        derivations ds) :=
  row_procedures (List.forall_mem_cons.mpr ⟨rfl, procedures⟩)

theorem yield_row_var :
    (rowDerivation (.var name type :: ds)).yield =
      .reserved .var :: .identifier name :: .mark .colon ::
        .reserved (if type = Reserved.real.text then .real else .integer) :: .mark .semicolon ::
          (rowDerivation ds).yield := by
  rw [row_var, Derivation.yield, rowDerivation, Derivation.yield, List.flatMap_cons,
    Derivation.yield]
  split <;> simp [Derivation.yield]

private theorem tree_row_var (htype : IsType type) :
    (rowDerivation (.var name type :: ds)).tree = .var name type :: (rowDerivation ds).tree := by
  have htree :
      (if type = Reserved.real.text then Derivation.realType else .integerType).tree = type := by
    rcases htype with rfl | rfl
    · rw [if_neg (by decide), Derivation.tree]
    · rw [if_pos rfl, Derivation.tree]
  rw [row_var, Derivation.tree, rowDerivation, Derivation.tree, List.flatMap_cons, Derivation.tree,
    htree]
  rfl

theorem yield_row_procedure (procedures : ∀ d ∈ ds, d.isVar = false) :
    (rowDerivation (.procedure name ds' body :: ds)).yield =
      .reserved .procedure :: .identifier name :: .mark .semicolon ::
        ((rowDerivation ds').yield ++ (Statement.bodyDerivation body).yield ++
          .mark .semicolon :: (rowDerivation ds).yield) := by
  rw [row_procedure procedures, row_procedures procedures, Derivation.yield, List.flatMap_cons,
    Derivation.yield, Derivation.yield, Derivation.yield]
  simp

private theorem tree_row_procedure (procedures : ∀ d ∈ ds, d.isVar = false) :
    (rowDerivation (.procedure name ds' body :: ds)).tree =
      .procedure name (rowDerivation ds').tree (Statement.bodyDerivation body).tree ::
        (rowDerivation ds).tree := by
  rw [row_procedure procedures, row_procedures procedures, Derivation.tree, List.map_cons,
    Derivation.tree, Derivation.tree, Derivation.tree]
  rfl

private theorem tree_rowDerivation (order : VarsFirst ds)
    (each : ∀ d ∈ ds, d.Fits Binary64.Literal) : (rowDerivation ds).tree = ds := by
  refine rowInduction ?_ ?_ ?_ order each
  · rw [rowDerivation, Derivation.tree]
    rfl
  · intro name type ds _ htype ih
    rw [tree_row_var htype, ih]
  · intro name ds' body ds _ _ hbody procedures ih' ih
    rw [tree_row_procedure procedures, ih', ih, Statement.tree_bodyDerivation hbody]

private theorem fits_of_sameAll_rowDerivation (order : VarsFirst ds)
    (each : ∀ d ∈ ds, d.Fits Binary64.Finite)
    (hsame : sameAll (rowDerivation ds).tree ds = true) : ∀ d ∈ ds, d.Fits Binary64.Literal := by
  revert hsame
  refine rowInduction ?_ ?_ ?_ order each
  · exact fun _ => List.forall_mem_nil _
  · intro name type ds hname htype ih hsame
    rw [tree_row_var htype, sameAll, Bool.and_eq_true] at hsame
    exact List.forall_mem_cons.mpr ⟨.var hname htype, ih hsame.2⟩
  · intro name ds' body ds hname order' hbody procedures ih' ih hsame
    rw [tree_row_procedure procedures, sameAll] at hsame
    simp only [same, Bool.and_eq_true] at hsame
    obtain ⟨⟨⟨-, hds'⟩, hsame_body⟩, hds⟩ := hsame
    have hbody' := Statement.fits_of_sameAll_bodyDerivation hbody hsame_body
    exact List.forall_mem_cons.mpr ⟨.procedure hname order' (ih' hds') hbody', ih hds⟩

private theorem within_rowDerivation (order : VarsFirst ds)
    (each : ∀ d ∈ ds, d.Fits Binary64.Literal) (n : Nat) :
    (rowDerivation ds).Within n ↔ ∀ k ∈ printedDepthsAll (n + 1) ds, k ≤ Rule.limit := by
  revert n
  refine rowInduction ?_ ?_ ?_ order each
  · intro n
    simp [rowDerivation, derivations, printedDepthsAll]
  · intro name type ds _ _ ih n
    rw [printedDepthsAll, printedDepths, List.nil_append, ← ih, row_var, rowDerivation,
      Derivation.within_declarations, Derivation.within_declarations]
  · intro name ds' body ds _ _ hbody procedures ih' ih n
    rw [printedDepthsAll, printedDepths, List.forall_mem_append, List.forall_mem_cons,
      List.forall_mem_append, ← ih, ← ih', ← Statement.within_bodyDerivation hbody,
      row_procedure procedures, row_procedures procedures]
    simp only [Derivation.within_declarations, List.forall_mem_cons,
      Derivation.within_procedureDeclaration, Derivation.within_block]

end Row

end Declaration

namespace Program

def derivation (p : Program) : Derivation .program :=
  .program p.name (.block (Declaration.rowDerivation p.declarations)
    (Statement.bodyDerivation p.body))

/-- The depths of the procedures, the compounds and the operands in the text of a program. -/
def printedDepths (p : Program) : List Nat :=
  Declaration.printedDepthsAll 4 p.declarations ++ Statement.bodyDepths 3 p.body

variable {p : Program}

theorem tree_derivation (h : p.WellFormed) : p.derivation.tree = p := by
  rw [derivation, Derivation.tree, Derivation.tree, Declaration.tree_rowDerivation h.order h.each,
    Statement.tree_bodyDerivation h.body_fits]

theorem wellFormed_of_same_derivation (h : p.Fits Binary64.Finite)
    (hsame : p.derivation.tree.same p = true) : p.WellFormed := by
  rw [derivation, Derivation.tree, Derivation.tree] at hsame
  simp only [same, Bool.and_eq_true] at hsame
  obtain ⟨⟨-, hds⟩, hbody⟩ := hsame
  exact ⟨h.program_name, h.order, Declaration.fits_of_sameAll_rowDerivation h.order h.each hds,
    Statement.fits_of_sameAll_bodyDerivation h.body_fits hbody⟩

theorem within_derivation (h : p.WellFormed) :
    p.derivation.Within 1 ↔ ∀ depth ∈ p.printedDepths, depth ≤ Rule.limit := by
  rw [derivation, Derivation.within_program, Derivation.within_block,
    Declaration.within_rowDerivation h.order h.each, Statement.within_bodyDerivation h.body_fits,
    printedDepths, List.forall_mem_append]

end Program

end MiniPascal
