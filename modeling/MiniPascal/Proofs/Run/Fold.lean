import MiniPascal.Run.Session

/-!
A run is a fold over assignments. Compounds only group the assignments of a program, which are
performed one after the other; the first one that fails ends the run, and the store is that of the
assignments before it. `Session.runs_iff_fold` states this for programs and for sessions of any
length.
-/

set_option autoImplicit false
set_option relaxedAutoImplicit false

namespace MiniPascal

structure Assignment where
  target : String
  value : Expr

mutual

/-- The assignments in a statement, at any depth, in the order in which they are written. -/
def Statement.assignments : Statement → List Assignment
  | .compound body => Statement.assignmentsAll body
  | .assign target value => [⟨target, value⟩]
  | .skip => []

def Statement.assignmentsAll : List Statement → List Assignment
  | [] => []
  | s :: ss => s.assignments ++ Statement.assignmentsAll ss

end

def Store.perform (store : Store) (a : Assignment) : Except EvalError Store :=
  (a.value.eval store).map (store.put a.target)

def Store.performAll (store : Store) : List Assignment → Except EvalError Unit × Store
  | [] => (.ok (), store)
  | a :: as =>
    match store.perform a with
    | .ok store' => store'.performAll as
    | .error e => (.error e, store)

def Session.performAll (s : Session) : List Assignment → Except EvalError Unit × Session
  | [] => (.ok (), s)
  | a :: as =>
    match a.value.eval s.store with
    | .ok v => (s.assign a.target v).performAll as
    | .error e => (.error e, s)

/-- How the statements of a program end that are run on a store. Either all their assignments are
performed, or those before one that fails; the error names the statement around that one. -/
inductive Ends (body : List Statement) (store : Store) : Except RuntimeError Unit → Store → Prop
  | finished {store' : Store}
      (performed : (Statement.assignmentsAll body).foldlM Store.perform store = .ok store') :
      Ends body store (.ok ()) store'
  | failed {front back : List Statement} {statement : Statement} {before after : List Assignment}
      {a : Assignment} {e : EvalError} {store' : Store} (split : body = front ++ statement :: back)
      (inside : statement.assignments = before ++ a :: after)
      (performed : (Statement.assignmentsAll front ++ before).foldlM Store.perform store =
        .ok store')
      (fails : a.value.eval store' = .error e) :
      Ends body store (.error ⟨e, statement⟩) store'

/-- How a row of programs ends: each goes on with the store that the one before it left, whether
that one failed or not. -/
inductive EndAll : Store → List Program → List (Except RuntimeError Unit) → Store → Prop
  | nil {store : Store} : EndAll store [] [] store
  | cons {store store' store'' : Store} {p : Program} {ps : List Program}
      {result : Except RuntimeError Unit} {results : List (Except RuntimeError Unit)}
      (first : Ends p.body store result store') (others : EndAll store' ps results store'') :
      EndAll store (p :: ps) (result :: results) store''

section Sequence

variable {ε α β : Type} {x : Except ε α} {f : α → Except ε β}

theorem bind_eq_ok_iff {b : β} : (x >>= f) = .ok b ↔ ∃ a, x = .ok a ∧ f a = .ok b := by
  cases x <;> simp [bind, Except.bind]

theorem bind_eq_error_iff {e : ε} :
    (x >>= f) = .error e ↔ x = .error e ∨ ∃ a, x = .ok a ∧ f a = .error e := by
  cases x <;> simp [bind, Except.bind]

end Sequence

namespace Store

variable {store store' : Store}

theorem perform_eq_ok_iff {a : Assignment} :
    store.perform a = .ok store' ↔
      ∃ v, a.value.eval store = .ok v ∧ store.put a.target v = store' := by
  unfold perform
  cases a.value.eval store with
  | ok v => simp [Except.map]
  | error e => simp [Except.map]

private theorem perform_eq_error_iff {a : Assignment} {e : EvalError} :
    store.perform a = .error e ↔ a.value.eval store = .error e := by
  unfold perform
  cases a.value.eval store with
  | ok v => simp [Except.map]
  | error e' => simp [Except.map]

private theorem performAll_append (store : Store) (as bs : List Assignment) :
    store.performAll (as ++ bs) =
      match store.performAll as with
      | (.ok (), store') => store'.performAll bs
      | (.error e, store') => (.error e, store') := by
  induction as generalizing store with
  | nil => rfl
  | cons a as ih =>
    rw [List.cons_append, performAll, performAll]
    cases store.perform a with
    | ok store' => exact ih store'
    | error e => rfl

private theorem performAll_eq_ok_iff {as : List Assignment} :
    store.performAll as = (.ok (), store') ↔ as.foldlM perform store = .ok store' := by
  induction as generalizing store with
  | nil => simp [performAll, pure, Except.pure]
  | cons a as ih =>
    rw [performAll, List.foldlM_cons]
    cases store.perform a with
    | ok next => exact ih
    | error e => simp [bind, Except.bind]

/-- What fails is one assignment, and what was done is the fold of those before it. -/
private theorem performAll_eq_error_iff {as : List Assignment} {e : EvalError} :
    store.performAll as = (.error e, store') ↔
      ∃ before a after, as = before ++ a :: after ∧
        before.foldlM perform store = .ok store' ∧ a.value.eval store' = .error e := by
  induction as generalizing store with
  | nil => simp [performAll]
  | cons first as ih =>
    rw [performAll]
    constructor
    · intro h
      cases hfirst : store.perform first with
      | ok next =>
        rw [hfirst] at h
        obtain ⟨before, a, after, rfl, hbefore, ha⟩ := ih.mp h
        refine ⟨first :: before, a, after, rfl, ?_, ha⟩
        rw [List.foldlM_cons, hfirst]
        exact hbefore
      | error e' =>
        rw [hfirst] at h
        cases h
        exact ⟨[], first, as, rfl, rfl, perform_eq_error_iff.mp hfirst⟩
    · rintro ⟨before, a, after, hsplit, hbefore, ha⟩
      cases before with
      | nil =>
        cases hsplit
        cases hbefore
        rw [perform_eq_error_iff.mpr ha]
      | cons done before =>
        cases hsplit
        rw [List.foldlM_cons] at hbefore
        cases hfirst : store.perform first with
        | ok next =>
          rw [hfirst] at hbefore
          exact ih.mpr ⟨before, a, after, rfl, hbefore, ha⟩
        | error e' =>
          rw [hfirst] at hbefore
          cases hbefore

end Store

namespace Session

private theorem performAll_append (s : Session) (as bs : List Assignment) :
    s.performAll (as ++ bs) =
      match s.performAll as with
      | (.ok (), s') => s'.performAll bs
      | (.error e, s') => (.error e, s') := by
  induction as generalizing s with
  | nil => rfl
  | cons a as ih =>
    rw [List.cons_append, performAll, performAll]
    cases a.value.eval s.store with
    | ok v => exact ih (s.assign a.target v)
    | error e => rfl

private theorem performAll_store (s : Session) (as : List Assignment) :
    (s.performAll as).map id store = s.store.performAll as := by
  induction as generalizing s with
  | nil => rfl
  | cons a as ih =>
    rw [performAll, Store.performAll, Store.perform]
    cases a.value.eval s.store with
    | ok v => exact ih (s.assign a.target v)
    | error e => rfl

mutual

/-- Running a statement performs its assignments, whatever the shape of its compounds. -/
private theorem execute_eq (s : Session) : (statement : Statement) →
    s.execute statement = s.performAll statement.assignments
  | .compound body => executeAll_eq s body
  | .assign target value => by
    rw [execute, Statement.assignments, performAll]
    cases value.eval s.store <;> rfl
  | .skip => rfl

theorem executeAll_eq (s : Session) : (body : List Statement) →
    s.executeAll body = s.performAll (Statement.assignmentsAll body)
  | [] => rfl
  | statement :: rest => by
    rw [Statement.assignmentsAll, performAll_append, ← execute_eq s statement, executeAll]
    rcases s.execute statement with ⟨_ | _, s'⟩
    · rfl
    · exact executeAll_eq s' rest

end

theorem runBody_cons_eq (s : Session) (statement : Statement) (rest : List Statement) :
    s.runBody (statement :: rest) =
      match s.performAll statement.assignments with
      | (.ok (), s') => s'.runBody rest
      | (.error e, s') => (.error ⟨e, statement⟩, s') := by
  rw [← execute_eq]
  rfl

theorem performAll_eq_runBody (s : Session) (body : List Statement) :
    s.performAll (Statement.assignmentsAll body) =
      ((s.runBody body).1.mapError RuntimeError.cause, (s.runBody body).2) := by
  induction body generalizing s with
  | nil => rfl
  | cons statement rest ih =>
    rw [Statement.assignmentsAll, performAll_append, runBody_cons_eq]
    rcases s.performAll statement.assignments with ⟨_ | _, s'⟩
    · rfl
    · exact ih s'

variable {s : Session} {body : List Statement} {store' : Store}

private theorem runBody_cons (s : Session) (statement : Statement) (rest : List Statement) :
    (∃ s' : Session, s.store.performAll statement.assignments = (.ok (), s'.store) ∧
      s.runBody (statement :: rest) = s'.runBody rest) ∨
    (∃ e, ∃ s' : Session, s.store.performAll statement.assignments = (.error e, s'.store) ∧
      s.runBody (statement :: rest) = (.error ⟨e, statement⟩, s')) := by
  rw [← performAll_store, runBody_cons_eq]
  rcases s.performAll statement.assignments with ⟨e | _, s'⟩
  · exact .inr ⟨e, s', rfl, rfl⟩
  · exact .inl ⟨s', rfl, rfl⟩

private theorem runBody_eq_ok_iff :
    (s.runBody body).map id store = (.ok (), store') ↔
      s.store.performAll (Statement.assignmentsAll body) = (.ok (), store') := by
  rw [← performAll_store, performAll_eq_runBody]
  rcases s.runBody body with ⟨e | _, s'⟩
  · exact ⟨nofun, nofun⟩
  · constructor
    · rintro ⟨⟩
      rfl
    · rintro ⟨⟩
      rfl

private theorem runBody_eq_error_iff {e : EvalError} {failing : Statement} :
    (s.runBody body).map id store = (.error ⟨e, failing⟩, store') ↔
      ∃ front back reached, body = front ++ failing :: back ∧
        s.store.performAll (Statement.assignmentsAll front) = (.ok (), reached) ∧
        reached.performAll failing.assignments = (.error e, store') := by
  induction body generalizing s with
  | nil => simp [runBody]
  | cons statement rest ih =>
    constructor
    · intro h
      rcases runBody_cons s statement rest with ⟨s', hperform, hrun⟩ | ⟨e', s', hperform, hrun⟩
      · rw [hrun] at h
        obtain ⟨front, back, reached, rfl, hfront, hfailing⟩ := ih.mp h
        refine ⟨statement :: front, back, reached, rfl, ?_, hfailing⟩
        rw [Statement.assignmentsAll, Store.performAll_append, hperform]
        exact hfront
      · rw [hrun] at h
        cases h
        exact ⟨[], rest, s.store, rfl, rfl, hperform⟩
    · rintro ⟨front, back, reached, hsplit, hfront, hfailing⟩
      cases front with
      | nil =>
        obtain ⟨rfl, rfl⟩ := List.cons.inj hsplit
        cases hfront
        rcases runBody_cons s statement rest with ⟨s', hperform, -⟩ | ⟨e', s', hperform, hrun⟩
        · rw [hfailing] at hperform
          cases hperform
        · rw [hfailing] at hperform
          cases hperform
          rw [hrun]
          rfl
      | cons done front =>
        obtain ⟨rfl, hrest⟩ := List.cons.inj hsplit
        rw [Statement.assignmentsAll, Store.performAll_append] at hfront
        rcases runBody_cons s statement rest with ⟨s', hperform, hrun⟩ | ⟨e', s', hperform, -⟩
        · rw [hperform] at hfront
          rw [hrun]
          exact ih.mpr ⟨front, back, reached, hrest, hfront, hfailing⟩
        · rw [hperform] at hfront
          cases hfront

theorem run_eq_iff_ends {p : Program} {result : Except RuntimeError Unit} :
    (s.run p).map id store = (result, store') ↔ Ends p.body s.store result store' := by
  rcases result with ⟨e, statement⟩ | _
  · rw [run, runBody_eq_error_iff]
    constructor
    · rintro ⟨front, back, reached, hsplit, hfront, hfailing⟩
      obtain ⟨before, a, after, hinside, hbefore, ha⟩ := Store.performAll_eq_error_iff.mp hfailing
      refine .failed hsplit hinside ?_ ha
      rw [List.foldlM_append, Store.performAll_eq_ok_iff.mp hfront]
      exact hbefore
    · intro h
      cases h with
      | @failed front back _ before after a _ _ split inside performed fails =>
        rw [List.foldlM_append] at performed
        cases hfront : (Statement.assignmentsAll front).foldlM Store.perform s.store with
        | error e' =>
          rw [hfront] at performed
          cases performed
        | ok reached =>
          rw [hfront] at performed
          have hfailing : reached.performAll statement.assignments = (.error e, store') :=
            Store.performAll_eq_error_iff.mpr ⟨before, a, after, inside, performed, fails⟩
          exact ⟨front, back, reached, split, Store.performAll_eq_ok_iff.mpr hfront, hfailing⟩
  · rw [run, runBody_eq_ok_iff, Store.performAll_eq_ok_iff]
    constructor
    · exact .finished
    · intro h
      cases h with
      | finished performed => exact performed

def runAll (s : Session) : List Program → List (Except RuntimeError Unit) × Session
  | [] => ([], s)
  | p :: ps =>
    let (result, s') := s.run p
    let (results, s'') := s'.runAll ps
    (result :: results, s'')

theorem runAll_cons (s : Session) (p : Program) (ps : List Program) :
    s.runAll (p :: ps) =
      ((s.run p).1 :: ((s.run p).2.runAll ps).1, ((s.run p).2.runAll ps).2) := rfl

private theorem runAll_eq_iff_endAll {ps : List Program}
    {results : List (Except RuntimeError Unit)} :
    (s.runAll ps).map id store = (results, store') ↔ EndAll s.store ps results store' := by
  induction ps generalizing s results with
  | nil =>
    constructor
    · intro h
      cases h
      exact .nil
    · intro h
      cases h
      rfl
  | cons p ps ih =>
    rw [runAll_cons]
    constructor
    · intro h
      cases h
      exact .cons (run_eq_iff_ends.mp rfl) (ih.mp rfl)
    · intro h
      cases h with
      | cons first others =>
        have hrun := run_eq_iff_ends.mpr first
        cases hrun
        have hrest := ih.mpr others
        cases hrest
        rfl

/-- A run ends as the fold over its assignments does, with the store that the fold has then; and so
for every row of programs that are run in one session. -/
theorem runs_iff_fold (s : Session) :
    (∀ p result store',
      (s.run p).1 = result ∧ (s.run p).2.store = store' ↔ Ends p.body s.store result store') ∧
    ∀ ps results store',
      (s.runAll ps).1 = results ∧ (s.runAll ps).2.store = store' ↔
        EndAll s.store ps results store' := by
  constructor
  · intro p result store'
    rw [← run_eq_iff_ends, Prod.ext_iff]
    rfl
  · intro ps results store'
    rw [← runAll_eq_iff_endAll, Prod.ext_iff]
    rfl

end Session

end MiniPascal
