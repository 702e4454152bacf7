import Mathlib.Data.List.Induction
import MiniPascal.Proofs.Run.Fold

/-!
What assignments assign. Performed one after the other they give a row of names and values, and the
store behind them is made of this row: its variables stand in the order in which their names occur
first, and each has the value that occurs last with its name. By `Store.inOrder_iff` that is all
there is to the store.
-/

set_option autoImplicit false
set_option relaxedAutoImplicit false

namespace MiniPascal

namespace Store

def putAll (store : Store) (values : List (String × Value)) : Store :=
  values.foldl (fun store e => store.put e.1 e.2) store

/-- The variables stand in the order of their first assignments, and each has the value of its last
one. -/
structure InOrder (store : Store) (done : List (String × Value)) : Prop where
  names : store.names = (done.map Prod.fst).eraseDups
  values : ∀ name, store.get? name = (done.reverse.find? fun e => e.1 = name).map Prod.snd

/-- Performed one after the other, the assignments assign these values. -/
inductive Performs : Store → List Assignment → List (String × Value) → Prop
  | nil {store : Store} : Performs store [] []
  | cons {store : Store} {a : Assignment} {as : List Assignment} {v : Value}
      {done : List (String × Value)} (value : a.value.eval store = .ok v)
      (others : Performs (store.put a.target v) as done) :
      Performs store (a :: as) ((a.target, v) :: done)

/-- What programs assign that are run one after the other: a program that ends well performs all its
assignments, and one that fails those before an assignment that has no value. -/
inductive PerformsAll : Store → List Program → List (String × Value) → Prop
  | nil {store : Store} : PerformsAll store [] []
  | finished {store : Store} {p : Program} {ps : List Program} {done more : List (String × Value)}
      (performed : store.Performs (Statement.assignmentsAll p.body) done)
      (others : PerformsAll (store.putAll done) ps more) :
      PerformsAll store (p :: ps) (done ++ more)
  | failed {store : Store} {p : Program} {ps : List Program} {before after : List Assignment}
      {a : Assignment} {e : EvalError} {done more : List (String × Value)}
      (split : Statement.assignmentsAll p.body = before ++ a :: after)
      (performed : store.Performs before done) (fails : a.value.eval (store.putAll done) = .error e)
      (others : PerformsAll (store.putAll done) ps more) :
      PerformsAll store (p :: ps) (done ++ more)

section Order

variable {store : Store} {done : List (String × Value)}

theorem putAll_cons (store : Store) (e : String × Value) (values : List (String × Value)) :
    store.putAll (e :: values) = (store.put e.1 e.2).putAll values := rfl

private theorem putAll_append (store : Store) (values values' : List (String × Value)) :
    store.putAll (values ++ values') = (store.putAll values).putAll values' :=
  List.foldl_append

private theorem InOrder.put (h : store.InOrder done) (name : String) (v : Value) :
    (store.put name v).InOrder (done ++ [(name, v)]) where
  names := by
    have hnew : [name].removeAll (done.map Prod.fst) =
        if name ∈ store.names then [] else [name] := by
      rw [h.names]
      simp only [List.removeAll, List.mem_eraseDups, List.filter_cons, List.filter_nil]
      by_cases hname : name ∈ done.map Prod.fst
      · simp [hname]
      · simp [hname]
    rw [names_put, List.map_append, List.map_singleton, List.eraseDups_append, hnew, ← h.names]
    split
    · exact (List.append_nil _).symm
    · rfl
  values := by
    intro other
    rw [get?_put, List.reverse_append, List.reverse_singleton, List.singleton_append,
      List.find?_cons, h.values]
    by_cases hname : name = other
    · simp [hname]
    · simp [hname]

/-- Put into a new store one after the other, values make the store that is in their order. -/
theorem inOrder_iff : store.InOrder done ↔ store = empty.putAll done := by
  have hmade : (empty.putAll done).InOrder done := by
    induction done using List.reverseRecOn with
    | nil => exact ⟨rfl, fun _ => rfl⟩
    | append_singleton done e ih =>
      rw [putAll_append]
      exact ih.put e.1 e.2
  constructor
  · intro h
    have hkeys : store.values.keys = (empty.putAll done).values.keys :=
      h.names.trans hmade.names.symm
    have hvalues := OrderedMap.eq_of_keys_of_get? hkeys fun name =>
      (h.values name).trans (hmade.values name).symm
    cases store
    exact congrArg mk hvalues
  · rintro rfl
    exact hmade

end Order

end Store

namespace Session

/-- From one session to the other these values were assigned and nothing else happened. -/
structure Assigns (s : Session) (done : List (String × Value)) (s' : Session) : Prop where
  performed : s'.performed.toList = s.performed.toList ++ done
  store : s'.store = s.store.putAll done

variable {s s' s'' : Session} {done done' : List (String × Value)}

theorem Assigns.refl (s : Session) : Assigns s [] s :=
  ⟨(List.append_nil _).symm, rfl⟩

theorem Assigns.trans (h : Assigns s done s') (h' : Assigns s' done' s'') :
    Assigns s (done ++ done') s'' where
  performed := by rw [h'.performed, h.performed, List.append_assoc]
  store := by rw [h'.store, h.store, Store.putAll_append]

theorem assigns_assign (s : Session) (name : String) (v : Value) :
    Assigns s [(name, v)] (s.assign name v) :=
  ⟨Array.toList_push, rfl⟩

variable {as : List Assignment} {e : EvalError} {p : Program}

private theorem performs_of_ok (h : s.performAll as = (.ok (), s')) :
    ∃ done, s.store.Performs as done ∧ Assigns s done s' := by
  induction as generalizing s with
  | nil =>
    cases h
    exact ⟨[], .nil, .refl _⟩
  | cons a as ih =>
    rw [performAll] at h
    cases hv : a.value.eval s.store with
    | error e =>
      rw [hv] at h
      cases h
    | ok v =>
      rw [hv] at h
      obtain ⟨done, hperforms, hassigns⟩ := ih h
      exact ⟨_, .cons hv hperforms, (assigns_assign s a.target v).trans hassigns⟩

private theorem performs_of_error (h : s.performAll as = (.error e, s')) :
    ∃ before a after done, as = before ++ a :: after ∧ s.store.Performs before done ∧
      Assigns s done s' ∧ a.value.eval s'.store = .error e := by
  induction as generalizing s with
  | nil => cases h
  | cons a as ih =>
    rw [performAll] at h
    cases hv : a.value.eval s.store with
    | error e' =>
      rw [hv] at h
      cases h
      exact ⟨[], a, as, [], rfl, .nil, .refl _, hv⟩
    | ok v =>
      rw [hv] at h
      obtain ⟨before, b, after, done, rfl, hperforms, hassigns, hfails⟩ := ih h
      exact ⟨a :: before, b, after, _, rfl, .cons hv hperforms,
        (assigns_assign s a.target v).trans hassigns, hfails⟩

theorem performs_of_run_eq_ok (h : s.run p = (.ok (), s')) :
    ∃ done, s.store.Performs (Statement.assignmentsAll p.body) done ∧ Assigns s done s' := by
  have hperform : s.performAll (Statement.assignmentsAll p.body) = (.ok (), s') := by
    rw [performAll_eq_runBody, ← run, h]
    rfl
  exact performs_of_ok hperform

theorem performs_of_run_eq_error {error : RuntimeError} (h : s.run p = (.error error, s')) :
    ∃ before a after done, Statement.assignmentsAll p.body = before ++ a :: after ∧
      s.store.Performs before done ∧ Assigns s done s' ∧
      a.value.eval s'.store = .error error.cause := by
  have hperform : s.performAll (Statement.assignmentsAll p.body) = (.error error.cause, s') := by
    rw [performAll_eq_runBody, ← run, h]
    rfl
  exact performs_of_error hperform

theorem performs_runAll (s : Session) (ps : List Program) :
    ∃ done, s.store.PerformsAll ps done ∧ Assigns s done (s.runAll ps).2 := by
  induction ps generalizing s with
  | nil => exact ⟨[], .nil, .refl s⟩
  | cons p ps ih =>
    rw [runAll_cons]
    rcases hrun : s.run p with ⟨error | _, s'⟩
    · obtain ⟨before, a, after, done, split, performed, assigns, fails⟩ :=
        performs_of_run_eq_error hrun
      obtain ⟨more, others, assigns'⟩ := ih s'
      rw [assigns.store] at fails others
      exact ⟨done ++ more, .failed split performed fails others, assigns.trans assigns'⟩
    · obtain ⟨done, performed, assigns⟩ := performs_of_run_eq_ok hrun
      obtain ⟨more, others, assigns'⟩ := ih s'
      rw [assigns.store] at others
      exact ⟨done ++ more, .finished performed others, assigns.trans assigns'⟩

end Session

end MiniPascal
