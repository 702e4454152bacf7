import MiniPascal.Proofs.Scope.Orderly

/-!
Checking with a cursor. A walk keeps the number of the scope it is in: it goes into a new scope at a
block, and back to the parent behind the block, also when there was an error in it. So it is back in
the outermost scope between any two programs, and the scopes are in order; `Walk.always_orderly`
puts this together for programs of any number, whether they are in order or not.
-/

set_option autoImplicit false
set_option relaxedAutoImplicit false

namespace MiniPascal

/-- A survey, and the number of the scope that is being checked. -/
structure Walk where
  survey : Survey
  current : Nat

namespace Walk

def start : Walk := ⟨.start, ScopeTable.outermost⟩

def enter (w : Walk) (name : String) : Walk :=
  let (opened, inner) := w.survey.openIn w.current name
  ⟨opened, inner⟩

/-- Go back to the scope around the current one, if there is one. -/
def leave (w : Walk) : Walk :=
  match w.survey.table.parent? w.current with
  | some parent => ⟨w.survey, parent⟩
  | none => w

def declare (w : Walk) (x : Symbol) : Except NameError Unit × Walk :=
  let (result, s) := w.survey.declare w.current x
  (result, ⟨s, w.current⟩)

def visitBody (body : List Statement) :
    Except NameError Unit × Walk → Except NameError Unit × Walk
  | (.error e, w) => (.error e, w)
  | (.ok (), w) => (w.survey.checkNames w.current (Statement.namesAll body), w)

/-- Leave a block, whatever is wrong in it. -/
def leaving (r : Except NameError Unit × Walk) : Except NameError Unit × Walk := (r.1, r.2.leave)

mutual

def visitDeclaration (w : Walk) : Declaration → Except NameError Unit × Walk
  | .var name type =>
    match w.survey.table.lookup w.current type with
    | some (.builtin type) => w.declare (.var name type)
    | _ => (.error (.unknownType type), w)
  | .procedure name declarations body =>
    match w.declare (.procedure name) with
    | (.error e, w') => (.error e, w')
    | (.ok (), w') => leaving (visitBody body ((w'.enter name).visitDeclarations declarations))

def visitDeclarations (w : Walk) : List Declaration → Except NameError Unit × Walk
  | [] => (.ok (), w)
  | d :: ds =>
    match w.visitDeclaration d with
    | (.error e, w') => (.error e, w')
    | (.ok (), w') => w'.visitDeclarations ds

end

def visit (w : Walk) (p : Program) : Except NameError Unit × Walk :=
  leaving (visitBody p.body ((w.enter p.name).visitDeclarations p.declarations))

def visitAll (w : Walk) (ps : List Program) : Walk := ps.foldl (fun w p => (w.visit p).2) w

def standing (i : Nat) (r : Except NameError Unit × Survey) : Except NameError Unit × Walk :=
  (r.1, ⟨r.2, i⟩)

/-- A row of declarations that a walk visits without going anywhere in the end. -/
def Returns (ds : List Declaration) : Prop :=
  ∀ (s : Survey) (i : Nat), visitDeclarations ⟨s, i⟩ ds = standing i (s.checkDeclarations i ds)

private theorem visitBody_standing (i : Nat) (body : List Statement)
    (r : Except NameError Unit × Survey) :
    visitBody body (standing i r) = standing i (Survey.checkBody i body r) := by
  obtain ⟨_ | _, s⟩ := r <;> rfl

/-- From the block in it a walk comes back to a scope, as the parent of the block stays the same. -/
private theorem leaving_block {ds : List Declaration} (h : Returns ds) (s : Survey) (i : Nat)
    (name : String) (body : List Statement) :
    leaving (visitBody body ((enter ⟨s, i⟩ name).visitDeclarations ds)) =
      standing i (s.checkBlock i name ds body) := by
  have hopened : s.table.scopes.size < (s.openIn i name).1.table.scopes.size := by
    rw [Survey.size_openIn]
    exact Nat.lt_succ_self _
  have hgrown := Survey.growsIn ds (s.openIn i name).1 s.table.scopes.size hopened
  have hparent : (s.checkBlock i name ds body).2.table.parent? s.table.scopes.size = some i := by
    rw [Survey.checkBlock, Survey.checkBody_table]
    exact hgrown.parent?.trans (s.table.parent?_openIn i name)
  change leaving (visitBody body (visitDeclarations ⟨(s.openIn i name).1, _⟩ ds)) = _
  rw [h, visitBody_standing]
  change (_, leave ⟨(s.checkBlock i name ds body).2, s.table.scopes.size⟩) = _
  rw [leave, hparent]
  rfl

mutual

private theorem visitDeclaration_eq (d : Declaration) (s : Survey) (i : Nat) :
    visitDeclaration ⟨s, i⟩ d = standing i (s.checkDeclaration i d) := by
  cases d with
  | var name type =>
    rw [visitDeclaration, Survey.checkDeclaration]
    simp only
    cases s.table.lookup i type with
    | none => rfl
    | some x => cases x <;> rfl
  | procedure name ds body =>
    rw [visitDeclaration, Survey.checkDeclaration, declare]
    obtain ⟨_ | _, s'⟩ := s.declare i (.procedure name)
    · rfl
    · exact leaving_block (returns ds) s' i name body

private theorem returns (ds : List Declaration) : Returns ds := by
  cases ds with
  | nil => exact fun _ _ => rfl
  | cons d ds =>
    intro s i
    rw [visitDeclarations, Survey.checkDeclarations, visitDeclaration_eq d s i]
    obtain ⟨_ | _, s'⟩ := s.checkDeclaration i d
    · rfl
    · exact returns ds s' i

end

theorem visit_eq (s : Survey) (p : Program) :
    visit ⟨s, ScopeTable.outermost⟩ p = standing ScopeTable.outermost (s.check p) :=
  leaving_block (returns p.declarations) s ScopeTable.outermost p.name p.body

theorem visitAll_eq (s : Survey) (ps : List Program) :
    visitAll ⟨s, ScopeTable.outermost⟩ ps = ⟨s.checkAll ps, ScopeTable.outermost⟩ := by
  induction ps generalizing s with
  | nil => rfl
  | cons p ps ih =>
    change visitAll (visit ⟨s, _⟩ p).2 ps = _
    rw [visit_eq]
    exact ih (s.check p).2

/-- After programs of any number, with errors or without, a walk stands in the outermost scope, its
survey is that of the checks alone, and its scopes are in order. The next program leaves them as
they are and opens others behind them. From every scope a search ends within one scope more than its
level, with the symbol of the first scope outwards that has the name. -/
theorem always_orderly (ps : List Program) :
    let w := start.visitAll ps
    let t := w.survey.table
    w.current = ScopeTable.outermost ∧ w.survey = Survey.start.checkAll ps ∧ t.Orderly ∧
    (∀ p, w.visit p = ((w.survey.check p).1, ⟨(w.survey.check p).2, ScopeTable.outermost⟩) ∧
      t.Extends (w.visit p).2.survey.table ∧
      t.scopes.size < (w.visit p).2.survey.table.scopes.size) ∧
    ∀ (i : Nat) (s : Scope) (name : String), t.scopes[i]? = some s →
      (∀ n, (t.outwards? i n).isSome ↔ n ≤ s.level) ∧
      t.searchWithin name (s.level + 1) (some i) = some (t.lookup i name) ∧
      (∀ x, t.lookup i name = some x ↔
        ∃ n j, t.outwards? i n = some j ∧ t.get? j name = some x ∧
          ∀ m k, t.outwards? i m = some k → m < n → t.get? k name = none) ∧
      (t.lookup i name = none ↔ ∀ n j, t.outwards? i n = some j → t.get? j name = none) := by
  have horderly := Survey.orderly_checkAll (s := .start) ps ScopeTable.orderly_start
  rw [show start.visitAll ps = _ from visitAll_eq .start ps]
  refine ⟨rfl, rfl, horderly, ?_, ?_⟩
  · intro p
    rw [visit_eq]
    exact ⟨rfl, Survey.extends_check _ p⟩
  · intro i s name hs
    exact ⟨horderly.outwards?_isSome_iff hs, horderly.searchWithin_eq hs name,
      horderly.lookup_eq_some_iff hs name, horderly.lookup_eq_none_iff hs name⟩

end Walk

end MiniPascal
