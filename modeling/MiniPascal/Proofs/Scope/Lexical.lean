import MiniPascal.Proofs.Scope.Environment

/-!
The name check is lexical scoping. What the check of a block does to the table of scopes is to add
symbols to one scope and new scopes behind all others, so the environment of the block grows just
as if it were handed on by value. `check_eq_checkProgram` puts this together for programs.
-/

set_option autoImplicit false
set_option relaxedAutoImplicit false

namespace MiniPascal

namespace Environment

def checkNames (env : Environment) : List String → Except NameError Unit
  | [] => .ok ()
  | name :: names => do
    env.checkName name
    env.checkNames names

section Names

variable (env : Environment)

private theorem checkNames_append (names names' : List String) :
    env.checkNames (names ++ names') = (do env.checkNames names; env.checkNames names') := by
  induction names with
  | nil => rfl
  | cons name names ih =>
    rw [List.cons_append, checkNames, checkNames, ih]
    cases env.checkName name <;> rfl

private theorem checkNames_singleton (name : String) :
    env.checkNames [name] = env.checkName name := by
  rw [checkNames]
  cases env.checkName name <;> rfl

private theorem checkExpr_eq (e : Expr) : env.checkExpr e = env.checkNames e.names := by
  induction e with
  | integer n => rfl
  | real x => rfl
  | var name => rw [checkExpr, Expr.names, checkNames_singleton]
  | binary left op right ihl ihr => rw [checkExpr, Expr.names, checkNames_append, ihl, ihr]
  | unary op operand ih => exact ih

mutual

private theorem checkStatement_eq (s : Statement) :
    env.checkStatement s = env.checkNames s.names := by
  cases s with
  | compound body => exact checkStatements_eq body
  | assign target value =>
    rw [checkStatement, checkExpr_eq, Statement.names, checkNames]
  | skip => rfl

theorem checkStatements_eq (ss : List Statement) :
    env.checkStatements ss = env.checkNames (Statement.namesAll ss) := by
  cases ss with
  | nil => rfl
  | cons s ss =>
    rw [checkStatements, Statement.namesAll, checkNames_append, checkStatement_eq s,
      checkStatements_eq ss]

end

end Names

end Environment

namespace Survey

variable {s : Survey} {i : Nat}

section Names

private theorem checkName_eq (s : Survey) (i : Nat) (name : String) :
    (s.table.environment i).checkName name =
      match s.complaint? i name with
      | some e => .error e
      | none => .ok () := by
  rw [Environment.checkName, complaint?, ScopeTable.lookup_eq_symbol?]
  cases (s.table.environment i).symbol? name with
  | none => rfl
  | some x => cases x <;> rfl

private theorem checkNames_eq (s : Survey) (i : Nat) (names : List String) :
    s.checkNames i names = (s.table.environment i).checkNames names := by
  induction names with
  | nil => rfl
  | cons name names ih =>
    rw [checkNames, List.findSome?_cons, Environment.checkNames, checkName_eq]
    cases s.complaint? i name with
    | some e => rfl
    | none => exact ih

end Names

section Growth

private theorem declare_table (s : Survey) (i : Nat) (x : Symbol) :
    (s.declare i x).2.table = s.table ∨ (s.declare i x).2.table = s.table.add i x := by
  unfold declare
  simp only
  split
  · exact .inl rfl
  · exact .inr rfl

private theorem grownIn_declare (s : Survey) (i : Nat) (x : Symbol) :
    s.table.GrownIn i (s.declare i x).2.table := by
  rcases declare_table s i x with h | h <;> rw [h]
  · exact .refl i s.table
  · exact s.table.grownIn_add i x

def checkBlock (s : Survey) (parent : Nat) (name : String) (declarations : List Declaration)
    (body : List Statement) : Except NameError Unit × Survey :=
  let (opened, inner) := s.openIn parent name
  checkBody inner body (opened.checkDeclarations inner declarations)

theorem check_eq_checkBlock (s : Survey) (p : Program) :
    s.check p = s.checkBlock ScopeTable.outermost p.name p.declarations p.body := rfl

/-- A row of declarations that adds to its scope only. -/
def GrowsIn (ds : List Declaration) : Prop :=
  ∀ (s : Survey) (i : Nat), i < s.table.scopes.size →
    s.table.GrownIn i (s.checkDeclarations i ds).2.table

theorem size_openIn (s : Survey) (parent : Nat) (name : String) :
    (s.openIn parent name).1.table.scopes.size = s.table.scopes.size + 1 := by
  simp [openIn, ScopeTable.openIn]

theorem checkBody_table (i : Nat) (body : List Statement) (r : Except NameError Unit × Survey) :
    (checkBody i body r).2 = r.2 := by
  obtain ⟨e | ⟨⟩, s⟩ := r <;> rfl

private theorem extends_checkBlock_of {ds : List Declaration} (h : GrowsIn ds) (s : Survey)
    (parent : Nat) (name : String) (body : List Statement) :
    s.table.Extends (s.checkBlock parent name ds body).2.table := by
  have hk : s.table.scopes.size < (s.openIn parent name).1.table.scopes.size := by
    rw [size_openIn]
    exact Nat.lt_succ_self _
  have hgrown := h (s.openIn parent name).1 s.table.scopes.size hk
  have hextends := hgrown.extends (s.table.extends_openIn parent name) (Nat.le_refl _)
  rw [checkBlock]
  simp only [checkBody_table]
  exact hextends

private theorem grownIn_procedure {name : String} {ds : List Declaration} {body : List Statement}
    (h : GrowsIn ds) (hi : i < s.table.scopes.size) :
    s.table.GrownIn i (s.checkDeclaration i (.procedure name ds body)).2.table := by
  have hdeclare := s.grownIn_declare i (.procedure name)
  rw [checkDeclaration]
  split
  · rename_i e s' hs'
    rwa [hs'] at hdeclare
  · rename_i s' hs'
    rw [hs'] at hdeclare
    have hi' : i < s'.table.scopes.size := Nat.lt_of_lt_of_le hi hdeclare.size_le
    exact hdeclare.trans ((extends_checkBlock_of h s' i name body).grownIn hi')

mutual

private theorem grownIn_checkDeclaration (d : Declaration) (s : Survey) (i : Nat)
    (hi : i < s.table.scopes.size) : s.table.GrownIn i (s.checkDeclaration i d).2.table := by
  cases d with
  | var name type =>
    rw [checkDeclaration]
    split
    · exact s.grownIn_declare i _
    · exact .refl i s.table
  | procedure name ds body => exact grownIn_procedure (growsIn ds) hi

/-- Checking declarations in a scope adds symbols to it, and scopes behind all others. -/
theorem growsIn (ds : List Declaration) : GrowsIn ds := by
  cases ds with
  | nil => exact fun s i _ => .refl i s.table
  | cons d ds =>
    intro s i hi
    have hfirst := grownIn_checkDeclaration d s i hi
    rw [checkDeclarations]
    split
    · rename_i e s' h
      rwa [h] at hfirst
    · rename_i s' h
      rw [h] at hfirst
      exact hfirst.trans (growsIn ds s' i (Nat.lt_of_lt_of_le hi hfirst.size_le))

end

theorem extends_checkBlock (s : Survey) (parent : Nat) (name : String) (ds : List Declaration)
    (body : List Statement) : s.table.Extends (s.checkBlock parent name ds body).2.table :=
  extends_checkBlock_of (growsIn ds) s parent name body

end Growth

section Refinement

/-- What a check in scope `i` answers: the frame of the scope, or the error. -/
def answer (i : Nat) (r : Except NameError Unit × Survey) : Except NameError Frame :=
  r.1.map fun () => r.2.table.get? i

private theorem declare_eq (x : Symbol) (hi : i < s.table.scopes.size) :
    Frame.declare (s.table.nameOf i) (s.table.get? i) x.name x = answer i (s.declare i x) := by
  unfold Frame.declare declare
  simp only
  cases hx : s.table.get? i x.name with
  | some y => rfl
  | none => exact congrArg Except.ok (ScopeTable.get?_add hi).symm

/-- A row of declarations that is checked in a scope as it is in the frame of the scope. -/
def Refines (ds : List Declaration) : Prop :=
  ∀ (s : Survey) (i : Nat), i < s.table.scopes.size →
    Environment.checkDeclarations (s.table.nameOf i) (s.table.outer i) (s.table.get? i) ds =
      answer i (s.checkDeclarations i ds)

private theorem checkBlock_eq_of {parent : Nat} (name : String) {ds : List Declaration}
    (body : List Statement) (hparent : parent < s.table.scopes.size) (h : Refines ds) :
    Environment.checkBlock name (s.table.environment parent) ds body =
      (s.checkBlock parent name ds body).1 := by
  have hk : s.table.scopes.size < (s.openIn parent name).1.table.scopes.size := by
    rw [size_openIn]
    exact Nat.lt_succ_self _
  have houter : (s.openIn parent name).1.table.outer s.table.scopes.size =
      s.table.environment parent := s.table.outer_openIn hparent name
  have hframe : (s.openIn parent name).1.table.get? s.table.scopes.size = Frame.empty :=
    s.table.get?_openIn parent name
  have hname : (s.openIn parent name).1.table.nameOf s.table.scopes.size = name :=
    s.table.nameOf_openIn parent name
  have hopened := h (s.openIn parent name).1 s.table.scopes.size hk
  rw [houter, hframe, hname] at hopened
  have hgrown := growsIn ds (s.openIn parent name).1 s.table.scopes.size hk
  have hkept := (hgrown.outer hk).trans houter
  change _ = (checkBody s.table.scopes.size body
    ((s.openIn parent name).1.checkDeclarations s.table.scopes.size ds)).1
  rw [Environment.checkBlock, hopened]
  revert hkept
  obtain ⟨e | ⟨⟩, s'⟩ := (s.openIn parent name).1.checkDeclarations s.table.scopes.size ds
  · intro _
    rfl
  · intro hkept
    change Environment.checkStatements (s'.table.get? _ :: s.table.environment parent) body =
      s'.checkNames _ _
    rw [← hkept, ← ScopeTable.environment_eq, Environment.checkStatements_eq, checkNames_eq]

private theorem bind_pure_eq_map {α β : Type} (x : Except NameError α)
    (f : α → Except NameError Unit) (b : β) :
    (do let a ← x; f a; return b) = (do let a ← x; f a).map fun () => b := by
  cases x with
  | error e => rfl
  | ok a =>
    change (do f a; return b) = (f a).map fun () => b
    cases f a <;> rfl

private theorem checkDeclaration_var (name type : String) (hi : i < s.table.scopes.size) :
    Environment.checkDeclaration (s.table.nameOf i) (s.table.outer i) (s.table.get? i)
      (.var name type) = answer i (s.checkDeclaration i (.var name type)) := by
  rw [Environment.checkDeclaration, checkDeclaration, ← ScopeTable.environment_eq,
    ← ScopeTable.lookup_eq_symbol?]
  cases s.table.lookup i type with
  | none => rfl
  | some x =>
    cases x with
    | builtin t => exact declare_eq (.var name t) hi
    | var _ _ => rfl
    | procedure _ => rfl

private theorem checkDeclaration_procedure {ds : List Declaration} (name : String)
    (body : List Statement) (hi : i < s.table.scopes.size) (h : Refines ds) :
    Environment.checkDeclaration (s.table.nameOf i) (s.table.outer i) (s.table.get? i)
      (.procedure name ds body) = answer i (s.checkDeclaration i (.procedure name ds body)) := by
  have hdeclare := declare_eq (.procedure name) hi
  have hgrown := s.grownIn_declare i (.procedure name)
  rw [Symbol.name] at hdeclare
  rw [Environment.checkDeclaration, checkDeclaration, hdeclare]
  revert hgrown
  obtain ⟨e | ⟨⟩, s'⟩ := s.declare i (.procedure name)
  · intro _
    rfl
  · intro hgrown
    have hi' : i < s'.table.scopes.size := Nat.lt_of_lt_of_le hi hgrown.size_le
    have houter : s'.table.environment i = s'.table.get? i :: s.table.outer i := by
      rw [ScopeTable.environment_eq, hgrown.outer hi]
    have hblock := checkBlock_eq_of name body hi' h
    have hkept := (s'.extends_checkBlock i name ds body).get? hi'
    have hanswer : answer i (s'.checkBlock i name ds body) =
        (Environment.checkBlock name (s'.table.get? i :: s.table.outer i) ds body).map
          fun () => s'.table.get? i := by
      rw [answer, hkept, ← hblock, houter]
    exact (bind_pure_eq_map _ _ _).trans hanswer.symm

mutual

private theorem checkDeclaration_eq (d : Declaration) (s : Survey) (i : Nat)
    (hi : i < s.table.scopes.size) :
    Environment.checkDeclaration (s.table.nameOf i) (s.table.outer i) (s.table.get? i) d =
      answer i (s.checkDeclaration i d) := by
  cases d with
  | var name type => exact checkDeclaration_var name type hi
  | procedure name ds body => exact checkDeclaration_procedure name body hi (refines ds)

private theorem refines (ds : List Declaration) : Refines ds := by
  cases ds with
  | nil => exact fun _ _ _ => rfl
  | cons d ds =>
    intro s i hi
    have hfirst := checkDeclaration_eq d s i hi
    have hgrown := grownIn_checkDeclaration d s i hi
    rw [Environment.checkDeclarations, checkDeclarations, hfirst]
    revert hgrown
    obtain ⟨e | ⟨⟩, s'⟩ := s.checkDeclaration i d
    · intro _
      rfl
    · intro hgrown
      have hrest := refines ds s' i (Nat.lt_of_lt_of_le hi hgrown.size_le)
      rw [hgrown.nameOf, hgrown.outer hi] at hrest
      exact hrest

end

theorem checkBlock_eq {parent : Nat} (hparent : parent < s.table.scopes.size) (name : String)
    (ds : List Declaration) (body : List Statement) :
    (s.checkBlock parent name ds body).1 =
      Environment.checkBlock name (s.table.environment parent) ds body :=
  (checkBlock_eq_of _ body hparent (refines ds)).symm

end Refinement

/-- Checking a program on its own is checking it with environments that are handed on by value:
the same programs are in order, and the others have the same error. -/
theorem check_eq_checkProgram (p : Program) :
    (Survey.start.check p).1 = Environment.checkProgram p := by
  have hsize : ScopeTable.outermost < Survey.start.table.scopes.size := by decide
  have henv : Survey.start.table.environment ScopeTable.outermost = [.builtins] :=
    ScopeTable.environment_start
  rw [check_eq_checkBlock, checkBlock_eq hsize, henv, Environment.checkProgram]

/-! A variable may have the name of a type, and hides it from then on. -/

example : Environment.checkProgram ⟨"p", [.var "INTEGER" "REAL", .var "a" "INTEGER"], []⟩ =
    .error (.unknownType "INTEGER") := rfl

end Survey

end MiniPascal
