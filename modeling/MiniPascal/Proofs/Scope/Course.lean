import MiniPascal.Proofs.Scope.Blocks
import MiniPascal.Proofs.Scope.Lexical

/-!
The course of a check. `Survey.check_eq_performAll` says that a check performs the steps to a
program up to the first one that fails, and `Survey.drawsAll_of_performAll` what these do to the
table: a scope is opened at each block, and a symbol is added at each declaration.
-/

set_option autoImplicit false
set_option relaxedAutoImplicit false

namespace MiniPascal

/-- The declaration is what the symbol in the table stands for. -/
inductive Declares : Declaration → Symbol → Prop
  | var (name : String) (type : BuiltinType) : Declares (.var name type.text) (.var name type)
  | procedure (name : String) (declarations : List Declaration) (body : List Statement) :
      Declares (.procedure name declarations body) (.procedure name)

/-- What a step that does not fail makes of a table. -/
inductive ScopeTable.Draws (t : ScopeTable) : Step → ScopeTable → Prop
  | enter {b : Block} {outer : Scope} (around : t.scopes[b.parent]? = some outer)
      (level : b.level = outer.level + 1) : Draws t (.enter b) (t.openIn b.parent b.name)
  | declare {i : Nat} {d : Declaration} {x : Symbol} (inner : 0 < i) (inside : i < t.scopes.size)
      (declares : Declares d x) (fresh : t.get? i x.name = none) :
      Draws t (.declare i d) (t.add i x)
  | use (i : Nat) (names : List String) : Draws t (.use i names) t

inductive ScopeTable.DrawsAll : ScopeTable → List Step → ScopeTable → Prop
  | nil (t : ScopeTable) : DrawsAll t [] t
  | cons {t t' t'' : ScopeTable} {step : Step} {steps : List Step} (first : t.Draws step t')
      (others : DrawsAll t' steps t'') : DrawsAll t (step :: steps) t''

namespace ScopeTable

def levels (t : ScopeTable) : List Nat := t.scopes.toList.map Scope.level

theorem getElem?_levels (t : ScopeTable) (i : Nat) :
    t.levels[i]? = t.scopes[i]?.map Scope.level := by
  rw [levels, List.getElem?_map, Array.getElem?_toList]

theorem length_levels (t : ScopeTable) : t.levels.length = t.scopes.size := by
  rw [levels, List.length_map, Array.length_toList]

theorem scopes_openIn {t : ScopeTable} {parent : Nat} {outer : Scope}
    (h : t.scopes[parent]? = some outer) (name : String) :
    (t.openIn parent name).scopes = t.scopes.push (.bare name (outer.level + 1) (some parent)) := by
  simp [openIn, h]

private theorem levels_openIn {t : ScopeTable} {parent : Nat} {outer : Scope}
    (h : t.scopes[parent]? = some outer) (name : String) :
    (t.openIn parent name).levels = t.levels ++ [outer.level + 1] := by
  rw [levels, scopes_openIn h, Array.toList_push, List.map_append]
  rfl

private theorem levels_add (t : ScopeTable) (i : Nat) (x : Symbol) :
    (t.add i x).levels = t.levels := by
  apply List.ext_getElem?
  intro j
  simp only [getElem?_levels, add, Array.getElem?_modify]
  split
  · rw [Option.map_map]
    rfl
  · rfl

end ScopeTable

section Draws

open ScopeTable

variable {t t' : ScopeTable}

private theorem ScopeTable.Draws.levels_eq {step : Step} (h : t.Draws step t') :
    t'.levels = Step.levelsAfter t.levels [step] := by
  cases h with
  | enter around level =>
    rw [levels_openIn around, ← level]
    rfl
  | declare => rw [levels_add, Step.levelsAfter_declare]
  | use => exact (List.append_nil _).symm

theorem ScopeTable.DrawsAll.levels_eq {steps : List Step} (h : t.DrawsAll steps t') :
    t'.levels = Step.levelsAfter t.levels steps := by
  induction h with
  | nil t => exact (List.append_nil _).symm
  | cons first _ ih =>
    rw [ih, first.levels_eq, ← Step.levelsAfter_append, List.singleton_append]

theorem ScopeTable.DrawsAll.size_eq {steps : List Step} (h : t.DrawsAll steps t') :
    t'.scopes.size = t.scopes.size + (Step.entered steps).length := by
  have hlength := congrArg List.length h.levels_eq
  rwa [Step.levelsAfter, List.length_append, List.length_map, length_levels,
    length_levels] at hlength

end Draws

theorem ScopeTable.name_of_lookup {t : ScopeTable} {i : Nat} {name : String} {x : Symbol}
    (h : t.lookup i name = some x) : x.name = name := by
  induction i using Nat.strongRecOn with
  | _ i ih =>
    rw [lookup] at h
    split at h
    · rename_i hget
      cases h
      obtain ⟨scope, -, hscope⟩ := Option.bind_eq_some_iff.mp hget
      exact Scope.name_of_get? hscope
    · split at h
      · cases h
      · split at h
        · exact ih _ ‹_› h
        · cases h

namespace Survey

/-- Perform a step. Procedures are only declared, their blocks come later. -/
def perform (s : Survey) : Step → Except NameError Unit × Survey
  | .enter b => (.ok (), (s.openIn b.parent b.name).1)
  | .declare i (.var name type) => s.checkDeclaration i (.var name type)
  | .declare i (.procedure name _ _) => s.declare i (.procedure name)
  | .use i names => (s.checkNames i names, s)

def performAll (s : Survey) : List Step → Except NameError Unit × Survey
  | [] => (.ok (), s)
  | step :: steps =>
    match s.perform step with
    | (.ok (), s') => s'.performAll steps
    | (.error e, s') => (.error e, s')

section Perform

variable {s s' : Survey} {step : Step} {steps steps' : List Step} {e : NameError} {i : Nat}

private theorem performAll_append (s : Survey) (steps steps' : List Step) :
    s.performAll (steps ++ steps') =
      match s.performAll steps with
      | (.ok (), s') => s'.performAll steps'
      | (.error e, s') => (.error e, s') := by
  induction steps generalizing s with
  | nil => rfl
  | cons step steps ih =>
    rw [List.cons_append, performAll, performAll]
    rcases s.perform step with ⟨_ | _, s'⟩
    · rfl
    · exact ih s'

theorem performAll_eq_error (h : s.performAll steps = (.error e, s')) :
    ∃ before step after reached, steps = before ++ step :: after ∧
      s.performAll before = (.ok (), reached) ∧ reached.perform step = (.error e, s') := by
  induction steps generalizing s with
  | nil => cases h
  | cons first steps ih =>
    rw [performAll] at h
    rcases hfirst : s.perform first with ⟨_ | _, next⟩
    · rw [hfirst] at h
      cases h
      exact ⟨[], first, steps, s, rfl, rfl, hfirst⟩
    · rw [hfirst] at h
      obtain ⟨before, step, after, reached, rfl, hbefore, hstep⟩ := ih h
      refine ⟨first :: before, step, after, reached, rfl, ?_, hstep⟩
      rw [performAll, hfirst]
      exact hbefore

private theorem declare_eq_ok {x : Symbol} (h : s.declare i x = (.ok (), s')) :
    s.table.get? i x.name = none ∧ s'.table = s.table.add i x := by
  unfold declare at h
  simp only at h
  split at h
  · cases h
  · rename_i hfresh
    cases h
    exact ⟨hfresh, rfl⟩

private theorem declare_eq_error {x : Symbol} (h : s.declare i x = (.error e, s')) :
    s'.table = s.table := by
  unfold declare at h
  simp only at h
  split at h
  · cases h
    rfl
  · cases h

theorem perform_declare (s : Survey) (i : Nat) (d : Declaration) :
    (∃ type, s.perform (.declare i d) = (.error (.unknownType type), s)) ∨
    ∃ x, Declares d x ∧ s.perform (.declare i d) = s.declare i x := by
  cases d with
  | var name type =>
    rw [perform, checkDeclaration]
    split
    · rename_i type' hlookup
      obtain rfl : type'.text = type := ScopeTable.name_of_lookup hlookup
      exact .inr ⟨_, .var name type', rfl⟩
    · exact .inl ⟨type, rfl⟩
  | procedure name declarations body => exact .inr ⟨_, .procedure name declarations body, rfl⟩

theorem perform_cases (h : s.perform step = (.ok (), s')) :
    (∃ b, step = .enter b ∧ s'.table = s.table.openIn b.parent b.name) ∨
    (∃ i d x, step = .declare i d ∧ Declares d x ∧ s.table.get? i x.name = none ∧
      s'.table = s.table.add i x) ∨
    ∃ i names, step = .use i names ∧ s'.table = s.table := by
  cases step with
  | enter b =>
    cases h
    exact .inl ⟨b, rfl, rfl⟩
  | declare i d =>
    rcases perform_declare s i d with ⟨type, hunknown⟩ | ⟨x, hdeclares, hperform⟩
    · rw [hunknown] at h
      cases h
    · rw [hperform] at h
      exact .inr (.inl ⟨i, d, x, rfl, hdeclares, declare_eq_ok h⟩)
  | use i names =>
    rw [perform, Prod.mk.injEq] at h
    exact .inr (.inr ⟨i, names, rfl, h.2 ▸ rfl⟩)

theorem table_of_perform_eq_error (h : s.perform step = (.error e, s')) : s'.table = s.table := by
  cases step with
  | enter b => cases h
  | declare i d =>
    rcases perform_declare s i d with ⟨type, hunknown⟩ | ⟨x, -, hperform⟩
    · rw [hunknown] at h
      cases h
      rfl
    · rw [hperform] at h
      exact declare_eq_error h
  | use i names =>
    rw [perform, Prod.mk.injEq] at h
    rw [h.2]

private theorem draws_of_perform (hfits : step.Fits s.table.levels)
    (h : s.perform step = (.ok (), s')) : s.table.Draws step s'.table := by
  rcases perform_cases h with ⟨b, rfl, htable⟩ | ⟨i, d, x, rfl, hdeclares, hfresh, htable⟩ |
    ⟨i, names, rfl, htable⟩
  · obtain ⟨level, hlevel, hsucc⟩ := hfits
    rw [ScopeTable.getElem?_levels, Option.map_eq_some_iff] at hlevel
    obtain ⟨outer, houter, rfl⟩ := hlevel
    rw [htable]
    exact .enter houter hsucc
  · obtain ⟨hinner, hinside⟩ := hfits
    rw [ScopeTable.length_levels] at hinside
    rw [htable]
    exact .declare hinner hinside hdeclares hfresh
  · rw [htable]
    exact .use i names

theorem performAll_cons_eq_ok (h : s.performAll (step :: steps) = (.ok (), s')) :
    ∃ next, s.perform step = (.ok (), next) ∧ next.performAll steps = (.ok (), s') := by
  rw [performAll] at h
  rcases hstep : s.perform step with ⟨_ | _, next⟩
  · rw [hstep] at h
    cases h
  · rw [hstep] at h
    exact ⟨next, rfl, h⟩

theorem drawsAll_of_performAll (hfit : Step.FitAll s.table.levels steps)
    (h : s.performAll steps = (.ok (), s')) : s.table.DrawsAll steps s'.table := by
  induction steps generalizing s with
  | nil =>
    cases h
    exact .nil _
  | cons step steps ih =>
    obtain ⟨next, hstep, hrest⟩ := performAll_cons_eq_ok h
    have hfirst := draws_of_perform hfit.1 hstep
    exact .cons hfirst (ih (hfirst.levels_eq ▸ hfit.2) hrest)

private theorem size_of_perform (h : s.perform step = (.ok (), s')) :
    s'.table.scopes.size = s.table.scopes.size + (Step.entered [step]).length := by
  rcases perform_cases h with ⟨b, rfl, htable⟩ | ⟨i, d, x, rfl, -, -, htable⟩ |
    ⟨i, names, rfl, htable⟩
  · rw [htable, ScopeTable.openIn, Array.size_push]
    rfl
  · rw [htable, ScopeTable.add, Array.size_modify]
    rfl
  · rw [htable]
    rfl

private theorem size_of_performAll (h : s.performAll steps = (.ok (), s')) :
    s'.table.scopes.size = s.table.scopes.size + (Step.entered steps).length := by
  induction steps generalizing s with
  | nil =>
    cases h
    rfl
  | cons step steps ih =>
    obtain ⟨next, hstep, hrest⟩ := performAll_cons_eq_ok h
    rw [ih hrest, size_of_perform hstep, Nat.add_assoc, ← List.length_append,
      ← Step.entered_append, List.singleton_append]

end Perform

section Check

def IsPerformed (ds : List Declaration) : Prop :=
  ∀ (s : Survey) (i level : Nat), s.checkDeclarations i ds =
    s.performAll (Declaration.stepsAll i level s.table.scopes.size ds)

private theorem checkBlock_eq_performAll {ds : List Declaration} (h : IsPerformed ds) (s : Survey)
    (parent level : Nat) (name : String) (body : List Statement) :
    s.checkBlock parent name ds body =
      s.performAll (Step.ofBlock s.table.scopes.size ⟨name, parent, level, ds⟩
        (Declaration.stepsAll s.table.scopes.size (level + 1) (s.table.scopes.size + 1) ds)
        body) := by
  have hinner := h (s.openIn parent name).1 s.table.scopes.size (level + 1)
  rw [size_openIn] at hinner
  rw [Step.ofBlock, performAll, perform]
  simp only
  rw [performAll_append, ← hinner]
  change checkBody _ body ((s.openIn parent name).1.checkDeclarations _ ds) = _
  rcases (s.openIn parent name).1.checkDeclarations s.table.scopes.size ds with ⟨_ | _, s'⟩
  · rfl
  · simp only [checkBody, performAll, perform]
    rcases s'.checkNames s.table.scopes.size (Statement.namesAll body) with _ | _ <;> rfl

mutual

private theorem checkDeclaration_eq_performAll (s : Survey) (i level : Nat) : (d : Declaration) →
    s.checkDeclaration i d = s.performAll (d.steps i level s.table.scopes.size)
  | .var name type => by
    rw [Declaration.steps, performAll, perform]
    rcases s.checkDeclaration i (.var name type) with ⟨_ | _, s'⟩ <;> rfl
  | .procedure name declarations body => by
    rw [Declaration.steps, performAll, perform, checkDeclaration]
    rcases hdeclare : s.declare i (.procedure name) with ⟨_ | _, s'⟩
    · rfl
    · have hsize : s.table.scopes.size = s'.table.scopes.size := by
        rw [(declare_eq_ok hdeclare).2, ScopeTable.add, Array.size_modify]
      rw [hsize]
      exact checkBlock_eq_performAll (isPerformed declarations) s' i level name body

private theorem isPerformed : (ds : List Declaration) → IsPerformed ds
  | [] => fun _ _ _ => rfl
  | d :: ds => by
    intro s i level
    rw [Declaration.stepsAll, performAll_append, checkDeclarations,
      checkDeclaration_eq_performAll s i level d]
    rcases hfirst : s.performAll (d.steps i level s.table.scopes.size) with ⟨_ | _, s'⟩
    · rfl
    · -- There is a scope for each block in `d` now, as the numbers of the steps to `ds` have it.
      have hsize := size_of_performAll hfirst
      rw [Declaration.entered_steps] at hsize
      rw [← hsize]
      exact isPerformed ds s' i level

end

/-- Checking a program is performing the steps to it, up to the first one that fails. -/
theorem check_eq_performAll (s : Survey) (p : Program) :
    s.check p = s.performAll (p.steps s.table.scopes.size) :=
  checkBlock_eq_performAll (isPerformed p.declarations) s ScopeTable.outermost 1 p.name p.body

section Drawn

variable {s : Survey} {p : Program}

theorem fitAll_steps (h : s.table.levels[ScopeTable.outermost]? = some 0) (p : Program) :
    Step.FitAll s.table.levels (p.steps s.table.scopes.size) := by
  have hfit := p.fitAll_steps h
  rwa [ScopeTable.length_levels] at hfit

theorem drawsAll_of_check_eq_ok (h : s.table.levels[ScopeTable.outermost]? = some 0)
    (hok : (s.check p).1 = .ok ()) :
    s.table.DrawsAll (p.steps s.table.scopes.size) (s.check p).2.table := by
  rw [check_eq_performAll] at hok ⊢
  exact drawsAll_of_performAll (fitAll_steps h p) (Prod.ext hok rfl)

theorem drawsAll_of_check_eq_error (h : s.table.levels[ScopeTable.outermost]? = some 0)
    {e : NameError} (herror : (s.check p).1 = .error e) :
    ∃ before step after reached, p.steps s.table.scopes.size = before ++ step :: after ∧
      s.performAll before = (.ok (), reached) ∧ (reached.perform step).1 = .error e ∧
      s.table.DrawsAll before (s.check p).2.table := by
  have hfit := fitAll_steps h p
  rw [check_eq_performAll] at herror ⊢
  obtain ⟨before, step, after, reached, hsplit, hbefore, hstep⟩ :=
    performAll_eq_error (Prod.ext herror rfl)
  rw [hsplit, Step.fitAll_append] at hfit
  refine ⟨before, step, after, reached, hsplit, hbefore, congrArg Prod.fst hstep, ?_⟩
  rw [table_of_perform_eq_error hstep]
  exact drawsAll_of_performAll hfit.1 hbefore

end Drawn

end Check

end Survey

end MiniPascal
