import Mathlib.Data.List.Infix
import MiniPascal.Proofs.Run.Performed

/-!
The order of the variables in a store. A session passes from one assignment to the next, through
compounds, failures and programs; at every point of it the variables stand in the order of their
first assignments, with the values of their last ones. `Session.always_in_order` states this for
programs of any number.
-/

set_option autoImplicit false
set_option relaxedAutoImplicit false

namespace MiniPascal

namespace Session

mutual

/-- The sessions that a statement passes through: one behind each assignment that is performed. -/
def trail (s : Session) : Statement → List Session
  | .compound body => s.trailAll body
  | .assign target value =>
    match value.eval s.store with
    | .ok v => [s.assign target v]
    | .error _ => []
  | .skip => []

def trailAll (s : Session) : List Statement → List Session
  | [] => []
  | statement :: rest =>
    s.trail statement ++
      match s.execute statement with
      | (.ok (), s') => s'.trailAll rest
      | (.error _, _) => []

end

def history (s : Session) : List Program → List Session
  | [] => []
  | p :: ps => s.trailAll p.body ++ (s.run p).2.history ps

/-- From one session to the next there is one of the given assignments, with the value that its
expression has there, and nothing else changes up to the last session. -/
inductive Leads (as : List Assignment) : Session → List Session → Session → Prop
  | nil {s : Session} : Leads as s [] s
  | cons {s s' : Session} {a : Assignment} {v : Value} {sessions : List Session} (written : a ∈ as)
      (value : a.value.eval s.store = .ok v) (others : Leads as (s.assign a.target v) sessions s') :
      Leads as s (s.assign a.target v :: sessions) s'

/-- What was performed stays performed, and the variables that were there keep their places. -/
structure Before (s s' : Session) : Prop where
  performed : s.performed.toList <+: s'.performed.toList
  names : s.store.names <+: s'.store.names

section Leads

variable {as bs : List Assignment} {s s' s'' : Session} {sessions sessions' : List Session}

private theorem Leads.mono (h : Leads as s sessions s') (hsub : as ⊆ bs) :
    Leads bs s sessions s' := by
  induction h with
  | nil => exact .nil
  | cons written value _ ih => exact .cons (hsub written) value ih

private theorem Leads.append (h : Leads as s sessions s') (h' : Leads as s' sessions' s'') :
    Leads as s (sessions ++ sessions') s'' := by
  induction h with
  | nil => exact h'
  | cons written value _ ih => exact .cons written value (ih h')

mutual

private theorem leads_trail (s : Session) : (statement : Statement) →
    Leads statement.assignments s (s.trail statement) (s.execute statement).2
  | .compound body => leads_trailAll s body
  | .assign target value => by
    rw [trail, execute, Statement.assignments]
    cases hvalue : value.eval s.store with
    | ok v => exact .cons List.mem_cons_self hvalue .nil
    | error e => exact .nil
  | .skip => .nil

private theorem leads_trailAll (s : Session) : (body : List Statement) →
    Leads (Statement.assignmentsAll body) s (s.trailAll body) (s.executeAll body).2
  | [] => .nil
  | statement :: rest => by
    have hfirst := leads_trail s statement
    rw [trailAll, executeAll, Statement.assignmentsAll]
    rcases hrun : s.execute statement with ⟨e | _, s'⟩ <;> rw [hrun] at hfirst
    · rw [List.append_nil]
      exact hfirst.mono (List.subset_append_left _ _)
    · have hrest := leads_trailAll s' rest
      exact (hfirst.mono (List.subset_append_left _ _)).append
        (hrest.mono (List.subset_append_right _ _))

end

private theorem runBody_snd (s : Session) (body : List Statement) :
    (s.runBody body).2 = (s.executeAll body).2 := by
  rw [executeAll_eq, performAll_eq_runBody]

theorem leads_history (s : Session) (ps : List Program) :
    Leads (ps.flatMap fun p => Statement.assignmentsAll p.body) s (s.history ps)
      (s.runAll ps).2 := by
  induction ps generalizing s with
  | nil => exact .nil
  | cons p ps ih =>
    have hfirst := leads_trailAll s p.body
    rw [← runBody_snd] at hfirst
    rw [List.flatMap_cons, history, runAll_cons]
    exact (hfirst.mono (List.subset_append_left _ _)).append
      ((ih (s.run p).2).mono (List.subset_append_right _ _))

end Leads

section Order

variable {as : List Assignment} {s s' s'' : Session} {sessions : List Session}

private theorem Before.trans (h : s.Before s') (h' : s'.Before s'') : s.Before s'' :=
  ⟨h.performed.trans h'.performed, h.names.trans h'.names⟩

private theorem before_assign (s : Session) (name : String) (v : Value) :
    s.Before (s.assign name v) where
  performed := by
    rw [assign, Array.toList_push]
    exact List.prefix_append _ _
  names := by
    rw [assign, Store.names_put]
    split
    · exact List.prefix_refl _
    · exact List.prefix_append _ _

/-- The sessions are those behind the first values that were assigned, behind the first two, and so
on, each with the store that these values make. -/
private theorem Leads.exists_assigned (h : Leads as s sessions s') :
    ∃ done, Assigns s done s' ∧
      (s :: sessions).map (fun t => t.performed.toList) =
        done.inits.map (s.performed.toList ++ ·) ∧
      ∀ t ∈ s :: sessions, ∃ front, Assigns s front t := by
  induction h with
  | nil =>
    refine ⟨[], .refl _, by simp, ?_⟩
    exact List.forall_mem_singleton.mpr ⟨[], .refl _⟩
  | @cons s s' a v sessions _ _ _ ih =>
    obtain ⟨done, hassigns, hperformed, hfronts⟩ := ih
    have hfirst := assigns_assign s a.target v
    refine ⟨(a.target, v) :: done, hfirst.trans hassigns, ?_, ?_⟩
    · rw [List.map_cons, hperformed, List.inits_cons, List.map_cons, List.map_map,
        hfirst.performed, List.append_nil]
      simp [Function.comp_def]
    · refine List.forall_mem_cons.mpr ⟨⟨[], .refl s⟩, fun t ht => ?_⟩
      obtain ⟨front, hfront⟩ := hfronts t ht
      exact ⟨_, hfirst.trans hfront⟩

private theorem Assigns.inOrder {done : List (String × Value)} (h : Assigns start done s) :
    s.store.InOrder s.performed.toList := by
  rw [h.performed]
  exact Store.inOrder_iff.mpr h.store

private theorem Leads.pairwise_before (h : Leads as s sessions s') :
    (s :: sessions).Pairwise Before := by
  induction h with
  | nil => exact List.pairwise_singleton _ _
  | @cons s s' a v sessions _ _ _ ih =>
    refine List.pairwise_cons.mpr ⟨?_, ih⟩
    have hfirst := before_assign s a.target v
    intro t ht
    rcases List.mem_cons.mp ht with rfl | ht
    · exact hfirst
    · exact hfirst.trans ((List.pairwise_cons.mp ih).1 t ht)

end Order

/-- While programs are run in a new session, whether they fail or not, one assignment follows the
other. What was performed at the end are the assignments of the programs in their order, as far as
each program came, and from point to point it is one more of them. At every point the variables
stand in the order of their first assignments so far, each with the value of its last one, and from
then on they keep their places. -/
theorem always_in_order (ps : List Program) :
    let points := start :: start.history ps
    Leads (ps.flatMap fun p => Statement.assignmentsAll p.body) start (start.history ps)
      (start.runAll ps).2 ∧
    (∃ done, Store.empty.PerformsAll ps done ∧
      points.map (fun s => s.performed.toList) = done.inits) ∧
    (∀ s ∈ points, s.store.InOrder s.performed.toList) ∧ points.Pairwise Before := by
  have hleads := leads_history start ps
  obtain ⟨done, hperforms, hall⟩ := performs_runAll start ps
  obtain ⟨done', hassigns, hpoints, hfronts⟩ := hleads.exists_assigned
  obtain rfl : done = done' := hall.performed.symm.trans hassigns.performed
  refine ⟨hleads, ⟨done, hperforms, ?_⟩, ?_, hleads.pairwise_before⟩
  · rw [hpoints]
    exact List.map_id _
  · intro s hs
    obtain ⟨front, hfront⟩ := hfronts s hs
    exact hfront.inOrder

/-! The first program fails at its third assignment; `a` keeps its place in the second one. -/

example :
    let p : Program := ⟨"p", [], [.compound [.assign "a" (.integer 1), .assign "b" (.integer 2)],
      .assign "a" (.var "x"), .assign "b" (.integer 4)]⟩
    let q : Program := ⟨"q", [], [.assign "c" (.var "a"), .assign "a" (.integer 3)]⟩
    (start.runAll [p, q]).2.store.entries =
      [("a", .integer 3), ("b", .integer 2), ("c", .integer 1)] := rfl

end Session

end MiniPascal
