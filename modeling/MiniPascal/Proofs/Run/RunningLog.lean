import MiniPascal.Interpretation
import MiniPascal.Proofs.Run.Performed

/-!
What is logged while a program is run. Every assignment is recorded with the value that it assigns,
and these records make the store, also where the run fails: in it the variables stand in the order
in which the records name them first, each with the value of its last record. `Program.logsRunning`
says so.
-/

set_option autoImplicit false
set_option relaxedAutoImplicit false

namespace MiniPascal

/-- The log of a run and the store at its end: the program, and a record of each assignment that was
performed. If the run fails, these are the assignments before one that has no value. -/
inductive Program.LogsRunning (p : Program) :
    Except RuntimeError Unit → Store → List Event → Prop
  | finished {done : List (String × Value)}
      (performed : Store.empty.Performs (Statement.assignmentsAll p.body) done)
      (inOrder : (Store.empty.putAll done).InOrder done) :
      LogsRunning p (.ok ()) (Store.empty.putAll done)
        (.interpreting p.name :: done.map fun record => .assigned record.1 record.2)
  | failed {before after : List Assignment} {a : Assignment} {done : List (String × Value)}
      {error : RuntimeError} (split : Statement.assignmentsAll p.body = before ++ a :: after)
      (performed : Store.empty.Performs before done)
      (fails : a.value.eval (Store.empty.putAll done) = .error error.cause)
      (inOrder : (Store.empty.putAll done).InOrder done) :
      LogsRunning p (.error error) (Store.empty.putAll done)
        (.interpreting p.name :: done.map fun record => .assigned record.1 record.2)

namespace Program

/-- A run logs the assignments that it performs, and these make the store. -/
theorem logsRunning (p : Program) :
    p.LogsRunning (Session.start.run p).1 (Session.start.run p).2.store p.runLogged.1 := by
  have hlog : p.runLogged.1 = .interpreting p.name ::
      (Session.start.run p).2.performed.toList.map fun a => .assigned a.1 a.2 := rfl
  rw [hlog]
  rcases hrun : Session.start.run p with ⟨error | _, s⟩
  · obtain ⟨before, a, after, done, split, performed, assigns, fails⟩ :=
      Session.performs_of_run_eq_error hrun
    rw [assigns.store] at fails
    rw [assigns.performed, assigns.store]
    exact .failed split performed fails (Store.inOrder_iff.mpr rfl)
  · obtain ⟨done, performed, assigns⟩ := Session.performs_of_run_eq_ok hrun
    rw [assigns.performed, assigns.store]
    exact .finished performed (Store.inOrder_iff.mpr rfl)

end Program

end MiniPascal
