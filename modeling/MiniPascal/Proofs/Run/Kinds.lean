import MiniPascal.Proofs.Run.Declared

/-!
The kind of a value, integer or real, can be foreseen without the value. Nothing holds a variable to
the type it was declared with, so its kind changes with what is assigned to it; but the kinds behind
an assignment follow from those in front of it. `Session.run_hasKinds` says so for expressions and
for runs, of those that fail as far as they came.
-/

set_option autoImplicit false
set_option relaxedAutoImplicit false

namespace MiniPascal

/-- The kind of an expression, given those of the variables. A sign keeps the kind. -/
def Expr.kind (kinds : String → Kind) : Expr → Kind
  | .integer _ => .integer
  | .real _ => .real
  | .var name => kinds name
  | .binary left op right => op.kind (left.kind kinds) (right.kind kinds)
  | .unary _ operand => operand.kind kinds

def Assignment.kindsAfter (kinds : String → Kind) (a : Assignment) : String → Kind :=
  fun name => if a.target = name then a.value.kind kinds else kinds name

def kindsAfter (kinds : String → Kind) (as : List Assignment) : String → Kind :=
  as.foldl Assignment.kindsAfter kinds

def Store.HasKinds (store : Store) (kinds : String → Kind) : Prop :=
  ∀ name v, store.get? name = some v → v.kind = kinds name

/-- The kinds of the values in a store. A name without a value is given a kind as well, which is
never looked at. -/
def Store.kinds (store : Store) : String → Kind :=
  fun name => ((store.get? name).map Value.kind).getD .integer

private theorem Store.hasKinds_kinds (store : Store) : store.HasKinds store.kinds := by
  intro name v hv
  simp [kinds, hv]

section Kinds

variable {store store' : Store} {kinds : String → Kind}

private theorem Store.HasKinds.eval (h : store.HasKinds kinds) {e : Expr} {v : Value}
    (heval : e.eval store = .ok v) : v.kind = e.kind kinds := by
  induction e generalizing v with
  | integer n =>
    cases heval
    rfl
  | real x =>
    cases heval
    rfl
  | var name =>
    simp only [Expr.eval] at heval
    cases hv : store.get? name with
    | none =>
      rw [hv] at heval
      cases heval
    | some w =>
      rw [hv] at heval
      cases heval
      exact h name _ hv
  | binary left op right ihl ihr =>
    simp only [Expr.eval, bind_eq_ok_iff] at heval
    obtain ⟨x, hx, y, hy, happly⟩ := heval
    rw [(Value.yields_apply op x y).kind_eq happly, ihl hx, ihr hy, Expr.kind]
  | unary op operand ih =>
    simp only [Expr.eval, bind_eq_ok_iff] at heval
    obtain ⟨w, hw, hsign⟩ := heval
    rw [(Value.yields_applySign op w).kind_eq hsign, ih hw, Expr.kind]

private theorem Store.HasKinds.perform (h : store.HasKinds kinds) {a : Assignment}
    (hperform : store.perform a = .ok store') : store'.HasKinds (a.kindsAfter kinds) := by
  obtain ⟨v, hv, rfl⟩ := perform_eq_ok_iff.mp hperform
  intro name w hw
  rw [get?_put] at hw
  unfold Assignment.kindsAfter
  split
  · rename_i htarget
    rw [if_pos htarget] at hw
    cases hw
    exact h.eval hv
  · rename_i hother
    rw [if_neg hother] at hw
    exact h name w hw

private theorem Store.HasKinds.foldlM (h : store.HasKinds kinds) {as : List Assignment}
    (hperform : as.foldlM Store.perform store = .ok store') :
    store'.HasKinds (kindsAfter kinds as) := by
  induction as generalizing store kinds with
  | nil =>
    cases hperform
    exact h
  | cons a as ih =>
    rw [List.foldlM_cons, bind_eq_ok_iff] at hperform
    obtain ⟨next, hnext, hrest⟩ := hperform
    exact ih (h.perform hnext) hrest

/-- What was assigned has a value, of the kind that was foreseen. -/
private theorem Store.HasKinds.assigned (h : store.HasKinds kinds) {as : List Assignment}
    (hperform : as.foldlM Store.perform store = .ok store') {a : Assignment} (ha : a ∈ as) :
    ∃ v, store'.get? a.target = some v ∧ v.kind = kindsAfter kinds as a.target := by
  have hname : a.target ∈ store'.names :=
    (mem_names_of_foldlM hperform).mpr (.inr (List.mem_map_of_mem ha))
  cases hv : store'.get? a.target with
  | none => exact absurd hname (OrderedMap.get?_eq_none_iff.mp hv)
  | some v => exact ⟨v, rfl, h.foldlM hperform _ v hv⟩

end Kinds

/-- A store has the kinds that were foreseen behind a row of assignments, and what these assign has
a value in it. -/
structure Store.Foreseen (store : Store) (kinds : String → Kind) (done : List Assignment) :
    Prop where
  all : store.HasKinds (kindsAfter kinds done)
  assigned : ∀ a ∈ done, ∃ v, store.get? a.target = some v ∧
    v.kind = kindsAfter kinds done a.target

private theorem Store.HasKinds.foreseen {store store' : Store} {kinds : String → Kind}
    (h : store.HasKinds kinds) {done : List Assignment}
    (performed : done.foldlM Store.perform store = .ok store') : store'.Foreseen kinds done :=
  ⟨h.foldlM performed, fun _ ha => h.assigned performed ha⟩

/-- How a program ends that is run on a store, with the kinds that were foreseen: those behind all
its assignments if it succeeds, and those behind the assignments that it came to if it fails. -/
inductive EndsWithKinds (body : List Statement) (kinds : String → Kind) (store : Store) :
    Except RuntimeError Unit → Store → Prop
  | finished {store' : Store}
      (performed : (Statement.assignmentsAll body).foldlM Store.perform store = .ok store')
      (foreseen : store'.Foreseen kinds (Statement.assignmentsAll body)) :
      EndsWithKinds body kinds store (.ok ()) store'
  | failed {before after : List Assignment} {a : Assignment} {error : RuntimeError} {store' : Store}
      (split : Statement.assignmentsAll body = before ++ a :: after)
      (performed : before.foldlM Store.perform store = .ok store')
      (fails : a.value.eval store' = .error error.cause)
      (foreseen : store'.Foreseen kinds before) :
      EndsWithKinds body kinds store (.error error) store'

namespace Session

/-- Every store has kinds. By those of a session's store, an expression that has a value has one of
the kind that its text says; and a program that is run in the session ends with the kinds that
follow from the assignments in its text, one after the other. -/
theorem run_hasKinds (s : Session) :
    (∃ kinds, s.store.HasKinds kinds) ∧
    ∀ kinds, s.store.HasKinds kinds →
      (∀ (e : Expr) (v : Value), e.eval s.store = .ok v → v.kind = e.kind kinds) ∧
      ∀ p : Program, EndsWithKinds p.body kinds s.store (s.run p).1 (s.run p).2.store := by
  refine ⟨⟨_, s.store.hasKinds_kinds⟩, fun kinds h => ⟨fun e v heval => h.eval heval, fun p => ?_⟩⟩
  have ends : Ends p.body s.store (s.run p).1 (s.run p).2.store := run_eq_iff_ends.mp rfl
  rcases hresult : (s.run p).1 with ⟨e, statement⟩ | _
  · rw [hresult] at ends
    obtain ⟨before, a, after, hsplit, performed, fails⟩ := ends.exists_failing
    exact .failed hsplit performed fails (h.foreseen performed)
  · rw [hresult] at ends
    cases ends with
    | finished performed => exact .finished performed (h.foreseen performed)

/-- `a` begins as an integer, is a real behind a division of integers, and an integer again behind
the other division of that real. The last statement fails, and `b` keeps the kind it has got. -/
theorem run_changes_kinds :
    let p : Program := ⟨"p", [], [.assign "a" (.binary (.var "a") .divide (.integer 2)),
      .assign "b" (.unary .minus (.var "a")),
      .assign "a" (.binary (.var "a") .div (.integer 1)), .assign "c" (.var "d")]⟩
    let s : Session := ⟨Store.empty.put "a" (.integer 6), #[]⟩
    s.store.HasKinds s.store.kinds ∧
    EndsWithKinds p.body s.store.kinds s.store (s.run p).1 (s.run p).2.store ∧
    ["a", "b"].map (kindsAfter s.store.kinds (Statement.assignmentsAll p.body)) =
      [.integer, .real] ∧
    (s.run p).2.store.names = ["a", "b"] := by
  intro p s
  have h := s.store.hasKinds_kinds
  exact ⟨h, ((run_hasKinds s).2 _ h).2 p, by decide +kernel, by decide +kernel⟩

end Session

end MiniPascal
