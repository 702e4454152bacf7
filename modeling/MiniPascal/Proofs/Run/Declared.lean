import MiniPascal.Interpretation
import MiniPascal.Proofs.Run.Fold
import MiniPascal.Proofs.Run.Operations
import MiniPascal.Proofs.Scope.Lexical

/-!
What the name check is good for. In a program that passes it, every name that the body uses is a
variable of the program's own block, so nothing else can be read or assigned in a run. A variable
may still be read before it is assigned; `Program.uses_declared` says that this is all that can be
wrong with a name.
-/

set_option autoImplicit false
set_option relaxedAutoImplicit false

namespace MiniPascal

def Assignment.names (a : Assignment) : List String := a.target :: a.value.names

/-- There is a variable of that name in the program's own block, whatever its procedures have. -/
def Program.HasVariable (p : Program) (name : String) : Prop :=
  ∃ type, .var name type ∈ p.declarations

mutual

private theorem Statement.names_eq :
    (s : Statement) → s.names = s.assignments.flatMap Assignment.names
  | .compound body => Statement.namesAll_eq body
  | .assign target value => by
    rw [Statement.names, Statement.assignments, List.flatMap_singleton, Assignment.names]
  | .skip => rfl

private theorem Statement.namesAll_eq : (body : List Statement) →
    Statement.namesAll body = (Statement.assignmentsAll body).flatMap Assignment.names
  | [] => rfl
  | s :: ss => by
    rw [Statement.namesAll, Statement.assignmentsAll, List.flatMap_append, Statement.names_eq s,
      Statement.namesAll_eq ss]

end

private theorem Statement.assignmentsAll_append (front back : List Statement) :
    Statement.assignmentsAll (front ++ back) =
      Statement.assignmentsAll front ++ Statement.assignmentsAll back := by
  induction front with
  | nil => rfl
  | cons s ss ih =>
    rw [List.cons_append, Statement.assignmentsAll, Statement.assignmentsAll, ih,
      List.append_assoc]

section Checked

variable {block : String} {outer env : Environment} {frame frame' : Frame}

private theorem Frame.declare_eq_ok_iff {name : String} {x : Symbol} :
    frame.declare block name x = .ok frame' ↔ frame name = none ∧ frame' = frame.add name x := by
  unfold declare
  cases frame name <;> simp [eq_comm]

private theorem Frame.exists_builtin {name : String} {x : Symbol} (h : builtins name = some x) :
    ∃ t, x = .builtin t := by
  unfold builtins add at h
  split at h
  · cases h
    exact ⟨_, rfl⟩
  · split at h
    · cases h
      exact ⟨_, rfl⟩
    · cases h

namespace Environment

private theorem exists_symbol_of_checkDeclaration {d : Declaration}
    (h : checkDeclaration block outer frame d = .ok frame') :
    ∃ name x, frame' = frame.add name x ∧
      ∀ v t, x = .var v t → ∃ type, d = .var name type := by
  cases d with
  | var name type =>
    rw [checkDeclaration] at h
    split at h
    · obtain ⟨-, rfl⟩ := Frame.declare_eq_ok_iff.mp h
      exact ⟨name, _, rfl, fun _ _ _ => ⟨type, rfl⟩⟩
    · cases h
  | procedure name ds body =>
    simp only [checkDeclaration, bind_eq_ok_iff] at h
    obtain ⟨inner, hdeclare, -, -, -, -, h⟩ := h
    obtain ⟨-, rfl⟩ := Frame.declare_eq_ok_iff.mp hdeclare
    cases h
    refine ⟨name, .procedure name, rfl, ?_⟩
    rintro v t ⟨⟩

private theorem variable_of_checkDeclarations {ds : List Declaration} {name v : String}
    {t : BuiltinType} (h : checkDeclarations block outer frame ds = .ok frame')
    (hname : frame' name = some (.var v t)) :
    frame name = some (.var v t) ∨ ∃ type, .var name type ∈ ds := by
  induction ds generalizing frame with
  | nil =>
    cases h
    exact .inl hname
  | cons d ds ih =>
    simp only [checkDeclarations, bind_eq_ok_iff] at h
    obtain ⟨next, hd, hds⟩ := h
    rcases ih hds with hnext | ⟨type, hmem⟩
    · obtain ⟨other, x, rfl, hvar⟩ := exists_symbol_of_checkDeclaration hd
      unfold Frame.add at hnext
      split at hnext
      · rename_i heq
        obtain ⟨type, rfl⟩ := hvar v t (Option.some.inj hnext)
        exact .inr ⟨type, heq ▸ List.mem_cons_self⟩
      · exact .inl hnext
    · exact .inr ⟨type, List.mem_cons_of_mem d hmem⟩

private theorem symbol?_of_checkNames {names : List String} (h : env.checkNames names = .ok ()) :
    ∀ name ∈ names, ∃ v t, env.symbol? name = some (.var v t) := by
  induction names with
  | nil => exact List.forall_mem_nil _
  | cons name names ih =>
    simp only [checkNames, bind_eq_ok_iff] at h
    obtain ⟨⟨⟩, hname, hnames⟩ := h
    refine List.forall_mem_cons.mpr ⟨?_, ih hnames⟩
    unfold checkName at hname
    split at hname
    · rename_i v t heq
      exact ⟨v, t, heq⟩
    · cases hname
    · cases hname

end Environment

/-- The names that the body of a checked program uses are variables of its own block. -/
private theorem Program.hasVariable_of_check {p : Program} (h : (Survey.start.check p).1 = .ok ()) :
    ∀ name ∈ Statement.namesAll p.body, p.HasVariable name := by
  have hsize : ScopeTable.outermost < Survey.start.table.scopes.size := by decide
  have henv : Survey.start.table.environment ScopeTable.outermost = [.builtins] :=
    ScopeTable.environment_start
  rw [Survey.check_eq_checkBlock, Survey.checkBlock_eq hsize, henv, Environment.checkBlock,
    bind_eq_ok_iff] at h
  obtain ⟨frame, hframe, hbody⟩ := h
  rw [Environment.checkStatements_eq] at hbody
  intro name hname
  obtain ⟨v, t, hsymbol⟩ := Environment.symbol?_of_checkNames hbody name hname
  rw [Environment.symbol?, List.findSome?_cons] at hsymbol
  split at hsymbol
  · rename_i x hx
    obtain rfl : x = .var v t := Option.some.inj hsymbol
    rcases Environment.variable_of_checkDeclarations hframe hx with hempty | hdeclared
    · cases hempty
    · exact hdeclared
  · -- Around the program's own block there are only types.
    rw [List.findSome?_cons] at hsymbol
    split at hsymbol
    · rename_i x hx
      obtain ⟨b, rfl⟩ := Frame.exists_builtin hx
      cases hsymbol
    · cases hsymbol

end Checked

section Unassigned

variable {store store' : Store}

private theorem Expr.unassigned_of_eval {e : Expr} {x : String}
    (h : e.eval store = .error (.undefined x)) : x ∈ e.names ∧ store.get? x = none := by
  induction e with
  | integer n => cases h
  | real r => cases h
  | var name =>
    rw [eval] at h
    split at h
    · cases h
    · rename_i hnone
      cases h
      exact ⟨List.mem_singleton_self _, hnone⟩
  | binary left op right ihl ihr =>
    simp only [eval, bind_eq_error_iff] at h
    rcases h with hleft | ⟨v, -, hright | ⟨w, -, happly⟩⟩
    · exact ⟨List.mem_append_left _ (ihl hleft).1, (ihl hleft).2⟩
    · exact ⟨List.mem_append_right _ (ihr hright).1, (ihr hright).2⟩
    · exact absurd happly ((Value.yields_apply op v w).ne_undefined x)
  | unary op operand ih =>
    simp only [eval, bind_eq_error_iff] at h
    rcases h with hoperand | ⟨v, -, hsign⟩
    · exact ih hoperand
    · exact absurd hsign ((Value.yields_applySign op v).ne_undefined x)

private theorem Store.mem_names_put {name other : String} {v : Value} :
    other ∈ (store.put name v).names ↔ other = name ∨ other ∈ store.names := by
  rw [names_put]
  split
  · rename_i hname
    constructor
    · exact .inr
    · rintro (rfl | h)
      · exact hname
      · exact h
  · rw [List.mem_append, List.mem_singleton, or_comm]

theorem Store.mem_names_of_foldlM {as : List Assignment}
    (h : as.foldlM Store.perform store = .ok store') {name : String} :
    name ∈ store'.names ↔ name ∈ store.names ∨ name ∈ as.map Assignment.target := by
  induction as generalizing store with
  | nil =>
    cases h
    simp
  | cons a as ih =>
    rw [List.foldlM_cons, bind_eq_ok_iff] at h
    obtain ⟨next, hnext, hrest⟩ := h
    obtain ⟨v, -, rfl⟩ := perform_eq_ok_iff.mp hnext
    rw [ih hrest, mem_names_put, List.map_cons, List.mem_cons, or_assoc, or_left_comm]

end Unassigned

namespace Ends

variable {body : List Statement} {store store' : Store}

theorem exists_failing {e : EvalError} {statement : Statement}
    (h : Ends body store (.error ⟨e, statement⟩) store') :
    ∃ before a after, Statement.assignmentsAll body = before ++ a :: after ∧
      before.foldlM Store.perform store = .ok store' ∧ a.value.eval store' = .error e := by
  cases h with
  | @failed front back _ before after a _ _ split inside performed fails =>
    refine ⟨Statement.assignmentsAll front ++ before, a,
      after ++ Statement.assignmentsAll back, ?_, performed, fails⟩
    rw [split, Statement.assignmentsAll_append, Statement.assignmentsAll, inside]
    simp only [List.append_assoc, List.cons_append]

private theorem exists_performed {result : Except RuntimeError Unit}
    (h : Ends body store result store') : ∃ before, before <+: Statement.assignmentsAll body ∧
      before.foldlM Store.perform store = .ok store' := by
  cases result with
  | ok =>
    cases h with
    | finished performed => exact ⟨_, List.prefix_refl _, performed⟩
  | error e =>
    obtain ⟨before, a, after, hsplit, performed, -⟩ := exists_failing h
    exact ⟨before, ⟨a :: after, hsplit.symm⟩, performed⟩

end Ends

namespace Program

variable {p : Program}

private theorem hasVariable_of_mem (h : ∀ name ∈ Statement.namesAll p.body, p.HasVariable name)
    {a : Assignment} (ha : a ∈ Statement.assignmentsAll p.body) :
    ∀ name ∈ a.names, p.HasVariable name := by
  intro name hname
  rw [Statement.namesAll_eq] at h
  exact h name (List.mem_flatMap.mpr ⟨a, ha, hname⟩)

/-- The body uses nothing but the variables of the program's own block. A run assigns to no other
name, whether it fails or not; and when it wants a variable that has no value, that is one of these,
and no assignment before the one that fails is to that variable. -/
structure UsesDeclared (p : Program) : Prop where
  names : ∀ name ∈ Statement.namesAll p.body, p.HasVariable name
  stored : ∀ name ∈ (Session.start.run p).2.store.names, p.HasVariable name
  undefined : ∀ x statement, (Session.start.run p).1 = .error ⟨.undefined x, statement⟩ →
    p.HasVariable x ∧
    ∃ before a after, Statement.assignmentsAll p.body = before ++ a :: after ∧
      before.foldlM Store.perform .empty = .ok (Session.start.run p).2.store ∧
      a.value.eval (Session.start.run p).2.store = .error (.undefined x) ∧
      x ∈ a.value.names ∧ ∀ b ∈ before, b.target ≠ x

private theorem usesDeclared_of_check (h : (Survey.start.check p).1 = .ok ()) : p.UsesDeclared := by
  have hnames := hasVariable_of_check h
  have hends : Ends p.body .empty (Session.start.run p).1 (Session.start.run p).2.store :=
    (Session.run_eq_iff_ends (s := .start)).mp rfl
  constructor
  case names => exact hnames
  case stored =>
    intro name hname
    obtain ⟨before, hbefore, hperformed⟩ := hends.exists_performed
    rcases (Store.mem_names_of_foldlM hperformed).mp hname with hempty | htarget
    · cases hempty
    · obtain ⟨a, ha, rfl⟩ := List.mem_map.mp htarget
      exact hasVariable_of_mem hnames (hbefore.subset ha) a.target List.mem_cons_self
  case undefined =>
    intro x statement hresult
    rw [hresult] at hends
    obtain ⟨before, a, after, hsplit, hperformed, hfails⟩ := hends.exists_failing
    obtain ⟨hused, hnone⟩ := Expr.unassigned_of_eval hfails
    have ha : a ∈ Statement.assignmentsAll p.body :=
      hsplit ▸ List.mem_append_right _ List.mem_cons_self
    refine ⟨hasVariable_of_mem hnames ha x (List.mem_cons_of_mem _ hused), before, a, after, hsplit,
      hperformed, hfails, hused, ?_⟩
    -- An assignment to the variable would have put it into the store.
    rintro b hb rfl
    exact OrderedMap.get?_eq_none_iff.mp hnone
      ((Store.mem_names_of_foldlM hperformed).mpr (.inr (List.mem_map_of_mem hb)))

end Program

private theorem exists_checked_of_interpret {source : String} {result : Except RuntimeError Store}
    (h : (interpret true source).outcome = result.mapError .runtime) :
    ∃ p, Program.ofString source = .ok p ∧ (Survey.start.check p).1 = .ok () ∧
      (Session.start.run p).1.map (fun _ => (Session.start.run p).2.store) = result := by
  simp only [interpret_outcome, if_true] at h
  cases hp : Program.ofString source with
  | error e =>
    rw [hp] at h
    cases result <;> cases h
  | ok p =>
    rw [hp] at h
    simp only at h
    cases hcheck : (Survey.start.check p).1 with
    | error e =>
      rw [hcheck] at h
      cases result <;> cases h
    | ok =>
      rw [hcheck] at h
      refine ⟨p, rfl, hcheck, ?_⟩
      revert h
      cases (Session.start.run p).1 <;> cases result <;> intro h <;> cases h <;> rfl

namespace Program

/-- A program that passes the name check uses its own variables only, and so does every text that is
interpreted with such a check: what it stores are variables of its program, and what it may want is
one of them. -/
theorem uses_declared :
    (∀ p : Program, (Survey.start.check p).1 = .ok () → p.UsesDeclared) ∧
    ∀ source : String,
      (∀ store, (interpret true source).outcome = .ok store →
        ∃ p, ofString source = .ok p ∧ ∀ name ∈ store.names, p.HasVariable name) ∧
      ∀ x statement,
        (interpret true source).outcome = .error (.runtime ⟨.undefined x, statement⟩) →
        ∃ p, ofString source = .ok p ∧ p.HasVariable x := by
  refine ⟨fun p => usesDeclared_of_check, fun source => ⟨?_, ?_⟩⟩
  · intro store h
    have hok : (interpret true source).outcome = Except.mapError .runtime (.ok store) := h
    obtain ⟨p, hp, hcheck, hrun⟩ := exists_checked_of_interpret hok
    refine ⟨p, hp, ?_⟩
    have hstored := (usesDeclared_of_check hcheck).stored
    revert hrun
    cases (Session.start.run p).1 with
    | error e => rintro ⟨⟩
    | ok =>
      rintro ⟨⟩
      exact hstored
  · intro x statement h
    have herror : (interpret true source).outcome =
        Except.mapError .runtime (.error ⟨.undefined x, statement⟩) := h
    obtain ⟨p, hp, hcheck, hrun⟩ := exists_checked_of_interpret herror
    refine ⟨p, hp, ((usesDeclared_of_check hcheck).undefined x statement ?_).1⟩
    revert hrun
    cases (Session.start.run p).1 with
    | error e =>
      rintro ⟨⟩
      rfl
    | ok => rintro ⟨⟩

/-- `a` and `b` are declared, and `b` is read before it is assigned. -/
theorem reads_unassigned :
    let p : Program := ⟨"p", [.var "a" "INTEGER", .var "b" "INTEGER"],
      [.assign "a" (.integer 1), .assign "a" (.var "b")]⟩
    (Session.start.run p).1 = .error ⟨.undefined "b", .assign "a" (.var "b")⟩ ∧
      p.HasVariable "b" ∧ ∀ name ∈ (Session.start.run p).2.store.names, p.HasVariable name := by
  intro p
  have hcheck : (Survey.start.check p).1 = .ok () := by
    have hsize : ScopeTable.outermost < Survey.start.table.scopes.size := by decide
    rw [Survey.check_eq_checkBlock, Survey.checkBlock_eq hsize]
    change Environment.checkBlock _ (ScopeTable.start.environment ScopeTable.outermost) _ _ = _
    rw [ScopeTable.environment_start]
    rfl
  have hrun : (Session.start.run p).1 = .error ⟨.undefined "b", .assign "a" (.var "b")⟩ := rfl
  have huses := uses_declared.1 p hcheck
  exact ⟨hrun, (huses.undefined "b" _ hrun).1, huses.stored⟩

end Program

end MiniPascal
