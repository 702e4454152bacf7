import MiniPascal.Proofs.Run.Performed
import MiniPascal.Scope.Check

/-!
What a run depends on. A program reads the variables that it reads before it has assigned them, and
from there on only what it has assigned itself; so two runs on stores that agree on these variables
assign the same values in the same order and end alike. `Program.depends_on_reads` says so, and that
a run leaves all other variables as they are.
-/

set_option autoImplicit false
set_option relaxedAutoImplicit false

namespace MiniPascal

/-- One of the assignments reads the variable, and none before it is to that variable. -/
def ReadsFirst (as : List Assignment) (x : String) : Prop :=
  ∃ before a after, as = before ++ a :: after ∧ x ∈ a.value.names ∧ ∀ b ∈ before, b.target ≠ x

namespace Session

/-- Two sessions have the same values of the variables that are read first, or none. -/
def AgreeOn (as : List Assignment) (s s' : Session) : Prop :=
  ∀ x, ReadsFirst as x → s.store.get? x = s'.store.get? x

/-- Two runs of the same assignments that end alike: with the same outcome, after the same values
were assigned. These belong to the first of the assignments, and to all of them if nothing fails. -/
structure EndAlike {ε : Type} (as : List Assignment) (s s' : Session)
    (ending ending' : Except ε Unit × Session) (done : List (String × Value)) : Prop where
  outcome : ending.1 = ending'.1
  targets : done.map Prod.fst <+: as.map Assignment.target
  complete : ending.1 = .ok () → done.map Prod.fst = as.map Assignment.target
  left : Assigns s done ending.2
  right : Assigns s' done ending'.2

end Session

section Reads

variable {as bs : List Assignment} {a : Assignment} {x : String}

private theorem not_readsFirst_nil : ¬ ReadsFirst [] x := by
  rintro ⟨before, a, after, hsplit, -⟩
  simp at hsplit

private theorem readsFirst_cons :
    ReadsFirst (a :: as) x ↔ x ∈ a.value.names ∨ (a.target ≠ x ∧ ReadsFirst as x) := by
  constructor
  · rintro ⟨before, b, after, hsplit, hread, hbefore⟩
    cases before with
    | nil =>
      obtain ⟨rfl, rfl⟩ := List.cons.inj hsplit
      exact .inl hread
    | cons first before =>
      obtain ⟨rfl, rfl⟩ := List.cons.inj hsplit
      obtain ⟨hfirst, hbefore⟩ := List.forall_mem_cons.mp hbefore
      exact .inr ⟨hfirst, before, b, after, rfl, hread, hbefore⟩
  · rintro (hread | ⟨htarget, before, b, after, rfl, hread, hbefore⟩)
    · exact ⟨[], a, as, rfl, hread, List.forall_mem_nil _⟩
    · exact ⟨a :: before, b, after, rfl, hread, List.forall_mem_cons.mpr ⟨htarget, hbefore⟩⟩

private theorem Expr.eval_congr {store store' : Store} {e : Expr}
    (h : ∀ x ∈ e.names, store.get? x = store'.get? x) : e.eval store = e.eval store' := by
  induction e with
  | integer n => rfl
  | real r => rfl
  | var name => rw [eval, eval, h name (List.mem_singleton_self _)]
  | binary left op right ihl ihr =>
    obtain ⟨hleft, hright⟩ := List.forall_mem_append.mp h
    rw [eval, eval, ihl hleft, ihr hright]
  | unary op operand ih => rw [eval, eval, ih h]

end Reads

namespace Store

variable {store store' : Store} {values : List (String × Value)} {x : String}

private theorem get?_putAll_of_not_mem (h : x ∉ values.map Prod.fst) :
    (store.putAll values).get? x = store.get? x := by
  induction values generalizing store with
  | nil => rfl
  | cons e values ih =>
    rw [List.map_cons, List.mem_cons, not_or] at h
    obtain ⟨hfirst, hrest⟩ := h
    rw [putAll_cons, ih hrest, get?_put, if_neg (Ne.symm hfirst)]

private theorem get?_putAll_of_mem (h : x ∈ values.map Prod.fst) :
    (store.putAll values).get? x = (store'.putAll values).get? x := by
  induction values generalizing store store' with
  | nil => cases h
  | cons e values ih =>
    rw [putAll_cons, putAll_cons]
    by_cases hrest : x ∈ values.map Prod.fst
    · exact ih hrest
    · have hfirst : x = e.1 := by simpa [hrest] using h
      rw [get?_putAll_of_not_mem hrest, get?_putAll_of_not_mem hrest, get?_put, get?_put, hfirst,
        if_pos rfl, if_pos rfl]

end Store

namespace Session

variable {s s' s'' : Session} {done done' : List (String × Value)}

variable {as bs : List Assignment} {a : Assignment}

/-- An assignment is evaluated alike, and the sessions behind it agree on what is read first from
then on: they agree on its target now. -/
private theorem AgreeOn.eval_eq (h : AgreeOn (a :: as) s s') :
    a.value.eval s.store = a.value.eval s'.store :=
  Expr.eval_congr fun x hx => h x (readsFirst_cons.mpr (.inl hx))

private theorem AgreeOn.assign (h : AgreeOn (a :: as) s s') (v : Value) :
    AgreeOn as (s.assign a.target v) (s'.assign a.target v) := by
  intro x hx
  simp only [Session.assign, Store.get?_put]
  split
  · rfl
  · rename_i hne
    exact h x (readsFirst_cons.mpr (.inr ⟨hne, hx⟩))

/-- Assignments end alike in sessions that agree on what is read first, by them or behind them, and
if they do not fail the sessions agree on what is read first behind them. -/
private theorem AgreeOn.performAll (h : AgreeOn (as ++ bs) s s') :
    (∃ done, EndAlike as s s' (s.performAll as) (s'.performAll as) done) ∧
    ((s.performAll as).1 = .ok () → AgreeOn bs (s.performAll as).2 (s'.performAll as).2) := by
  induction as generalizing s s' with
  | nil =>
    exact ⟨⟨[], ⟨rfl, List.prefix_refl _, fun _ => rfl, .refl s, .refl s'⟩⟩, fun _ => h⟩
  | cons a as ih =>
    have heval := AgreeOn.eval_eq h
    rw [Session.performAll, Session.performAll, ← heval]
    cases a.value.eval s.store with
    | error e =>
      exact ⟨⟨[], ⟨rfl, List.nil_prefix, nofun, .refl s, .refl s'⟩⟩, nofun⟩
    | ok v =>
      obtain ⟨⟨done, hdone⟩, hagree⟩ := ih (AgreeOn.assign h v)
      refine ⟨⟨(a.target, v) :: done, ⟨hdone.outcome, ?_, ?_, ?_, ?_⟩⟩, hagree⟩
      · exact List.cons_prefix_cons.mpr ⟨rfl, hdone.targets⟩
      · intro hok
        rw [List.map_cons, List.map_cons, hdone.complete hok]
      · exact (assigns_assign s a.target v).trans hdone.left
      · exact (assigns_assign s' a.target v).trans hdone.right

private theorem AgreeOn.runBody {body : List Statement}
    (h : AgreeOn (Statement.assignmentsAll body) s s') :
    ∃ done, EndAlike (Statement.assignmentsAll body) s s' (s.runBody body) (s'.runBody body)
      done := by
  induction body generalizing s s' with
  | nil => exact ⟨[], ⟨rfl, List.prefix_refl _, fun _ => rfl, .refl s, .refl s'⟩⟩
  | cons statement rest ih =>
    rw [Statement.assignmentsAll] at h
    obtain ⟨⟨done, hdone⟩, hagree⟩ := h.performAll
    rw [runBody_cons_eq, runBody_cons_eq, Statement.assignmentsAll]
    rcases hrun : s.performAll statement.assignments with ⟨result, t⟩
    rcases hrun' : s'.performAll statement.assignments with ⟨result', t'⟩
    rw [hrun, hrun'] at hdone hagree
    obtain rfl : result = result' := hdone.outcome
    cases result with
    | error e =>
      refine ⟨done, ⟨rfl, ?_, nofun, hdone.left, hdone.right⟩⟩
      rw [List.map_append]
      exact hdone.targets.trans (List.prefix_append _ _)
    | ok =>
      obtain ⟨done', hdone'⟩ := ih (hagree rfl)
      have hfirst := hdone.complete rfl
      refine ⟨done ++ done', ⟨hdone'.outcome, ?_, ?_, hdone.left.trans hdone'.left,
        hdone.right.trans hdone'.right⟩⟩
      · rw [List.map_append, List.map_append, hfirst]
        exact (List.prefix_append_right_inj _).mpr hdone'.targets
      · intro hok
        rw [List.map_append, List.map_append, hfirst, hdone'.complete hok]

end Session

namespace Program

/-- Two sessions agree on the variables that a program reads before it has assigned them. Then it
ends alike in both, with the same error in the same statement if it fails. Before that the same
values were assigned, those of the first of its assignments; in the end the two stores agree on what
was assigned, and each has kept everything else. What a program declares has no part in this. -/
theorem depends_on_reads {p : Program} {s s' : Session}
    (agree : ∀ x, ReadsFirst (Statement.assignmentsAll p.body) x →
      s.store.get? x = s'.store.get? x) :
    (s.run p).1 = (s'.run p).1 ∧
    (∃ done : List (String × Value),
      (s.run p).2.performed.toList = s.performed.toList ++ done ∧
      (s'.run p).2.performed.toList = s'.performed.toList ++ done ∧
      done.map Prod.fst <+: (Statement.assignmentsAll p.body).map Assignment.target ∧
      (∀ x ∈ done.map Prod.fst, (s.run p).2.store.get? x = (s'.run p).2.store.get? x) ∧
      ∀ x, x ∉ done.map Prod.fst →
        (s.run p).2.store.get? x = s.store.get? x ∧
        (s'.run p).2.store.get? x = s'.store.get? x) ∧
    ∀ declarations, s.run { p with declarations } = s.run p := by
  obtain ⟨done, hdone⟩ := Session.AgreeOn.runBody agree
  refine ⟨hdone.outcome, ⟨done, hdone.left.performed, hdone.right.performed, hdone.targets, ?_, ?_⟩,
    fun _ => rfl⟩
  · intro x hx
    rw [Session.run, Session.run, hdone.left.store, hdone.right.store]
    exact Store.get?_putAll_of_mem hx
  · intro x hx
    rw [Session.run, Session.run, hdone.left.store, hdone.right.store]
    exact ⟨Store.get?_putAll_of_not_mem hx, Store.get?_putAll_of_not_mem hx⟩

/-- `b` is read behind its assignment and `z` is not read at all, so the stores may differ in them.
The last assignment fails in both; by then `c` has been assigned. -/
theorem differs_in_unread :
    let p : Program := ⟨"p", [], [.compound [.assign "b" (.var "a"),
      .assign "c" (.binary (.var "b") .add (.integer 1))], .assign "d" (.var "e")]⟩
    let s : Session :=
      ⟨Store.empty.putAll [("a", .integer 1), ("b", .integer 5), ("z", .integer 3)], #[]⟩
    let s' : Session := ⟨Store.empty.putAll [("a", .integer 1)], #[]⟩
    (s'.run p).1 = .error ⟨.undefined "e", .assign "d" (.var "e")⟩ ∧
      (s.run p).1 = (s'.run p).1 ∧ (s.run p).2.store.get? "c" = (s'.run p).2.store.get? "c" := by
  intro p s s'
  have agree : ∀ x, ReadsFirst (Statement.assignmentsAll p.body) x →
      s.store.get? x = s'.store.get? x := by
    intro x hx
    have hread : x = "a" ∨ x = "e" := by
      simp only [p, Statement.assignmentsAll, Statement.assignments, List.cons_append,
        List.nil_append, readsFirst_cons, not_readsFirst_nil, Expr.names, List.mem_singleton,
        and_false, or_false] at hx
      rcases hx with ha | ⟨hb, hb' | ⟨-, he⟩⟩
      · exact .inl ha
      · exact absurd hb'.symm hb
      · exact .inr he
    rcases hread with rfl | rfl <;> rfl
  obtain ⟨houtcome, ⟨done, hdone, -, -, hassigned, -⟩, -⟩ := depends_on_reads agree
  have hc : "c" ∈ done.map Prod.fst := by
    have hperformed : done = [("b", .integer 1), ("c", .integer 2)] := hdone.symm
    rw [hperformed]
    decide
  exact ⟨rfl, houtcome, hassigned "c" hc⟩

end Program

end MiniPascal
