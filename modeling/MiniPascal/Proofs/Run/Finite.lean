import MiniPascal.Proofs.Printing.Parsed
import MiniPascal.Proofs.Run.Trail

/-!
No infinity and no NaN gets into a store. Whatever the operations on reals give, what is kept of
their results is finite, and so are the literals of every text that can be read; so all stores of a
session stay finite, as `Session.always_finite` says.
-/

set_option autoImplicit false
set_option relaxedAutoImplicit false

namespace MiniPascal

/-- The operations on reals that evaluation relies on. Nothing is said about their results. -/
structure RealOps where
  ofInt : Int → Binary64
  add : Binary64 → Binary64 → Binary64
  sub : Binary64 → Binary64 → Binary64
  mul : Binary64 → Binary64 → Binary64
  div : Binary64 → Binary64 → Binary64
  floor : Binary64 → Int

def RealOps.machine : RealOps where
  ofInt := Binary64.ofInt
  add := (· + ·)
  sub := (· - ·)
  mul := (· * ·)
  div := (· / ·)
  floor := Binary64.floor

namespace Value

def toRealBy (ops : RealOps) : Value → Binary64
  | .integer n => ops.ofInt n.toInt
  | .real x => x

def combineBy (ops : RealOps) (symbol : String) (exact : Int → Int → Int)
    (rounded : Binary64 → Binary64 → Binary64) : Value → Value → Except EvalError Value
  | .integer m, .integer n => ofInt symbol (exact m.toInt n.toInt)
  | x, y => ofReal symbol (rounded (x.toRealBy ops) (y.toRealBy ops))

def floorDivBy (ops : RealOps) (symbol : String) : Value → Value → Except EvalError Value
  | .integer m, .integer n => ofWord? symbol (Integer.floorDiv? m n)
  | x, y =>
    let quotient := ops.div (x.toRealBy ops) (y.toRealBy ops)
    if quotient.isFinite then ofInt symbol (ops.floor quotient) else .error (.overflow symbol)

def applyBy (ops : RealOps) (op : BinaryOp) (x y : Value) : Except EvalError Value :=
  match op with
  | .add => combineBy ops op.text (· + ·) ops.add x y
  | .subtract => combineBy ops op.text (· - ·) ops.sub x y
  | .multiply => combineBy ops op.text (· * ·) ops.mul x y
  | .divide =>
    if y.isZero then .error .divisionByZero
    else ofReal op.text (ops.div (x.toRealBy ops) (y.toRealBy ops))
  | .div => if y.isZero then .error .divisionByZero else floorDivBy ops op.text x y

def Finite : Value → Prop
  | .integer _ => True
  | .real x => x.Finite

end Value

namespace Expr

/-- Evaluate an expression with any operations on reals. -/
def evalBy (ops : RealOps) (store : Store) : Expr → Except EvalError Value
  | .integer n => .ok (.integer n)
  | .real x => .ok (.real x)
  | .var name =>
    match store.get? name with
    | some v => .ok v
    | none => .error (.undefined name)
  | .binary left op right => do
    let x ← left.evalBy ops store
    let y ← right.evalBy ops store
    Value.applyBy ops op x y
  | .unary op operand => do
    let v ← operand.evalBy ops store
    Value.applySign op v

def reals : Expr → List Binary64
  | .integer _ => []
  | .real x => [x]
  | .var _ => []
  | .binary left _ right => left.reals ++ right.reals
  | .unary _ operand => operand.reals

end Expr

def Store.Finite (store : Store) : Prop := ∀ entry ∈ store.entries, entry.2.Finite

section Machine

private theorem Value.toRealBy_machine (v : Value) : v.toRealBy .machine = v.toReal := by
  cases v <;> rfl

private theorem Value.combineBy_machine (symbol : String) (exact : Int → Int → Int)
    (rounded : Binary64 → Binary64 → Binary64) (x y : Value) :
    combineBy .machine symbol exact rounded x y = combine symbol exact rounded x y := by
  cases x <;> cases y <;> rfl

private theorem Value.floorDivBy_machine (symbol : String) (x y : Value) :
    floorDivBy .machine symbol x y = floorDiv symbol x y := by
  cases x <;> cases y <;> rfl

private theorem Value.applyBy_machine (op : BinaryOp) (x y : Value) :
    applyBy .machine op x y = apply op x y := by
  cases op with
  | add | subtract | multiply => exact combineBy_machine _ _ _ x y
  | divide =>
    simp only [applyBy, apply, toRealBy_machine]
    rfl
  | div => simp only [applyBy, apply, floorDivBy_machine]

private theorem Expr.evalBy_machine (store : Store) (e : Expr) :
    e.evalBy .machine store = e.eval store := by
  induction e with
  | integer n => rfl
  | real x => rfl
  | var name => rfl
  | binary left op right ihl ihr => simp only [evalBy, eval, ihl, ihr, Value.applyBy_machine]
  | unary op operand ih => simp only [evalBy, eval, ih]

end Machine

section Evaluation

variable {symbol : String} {v w u : Value}

private theorem Value.finite_of_ofWord? {n : Option Int64} (h : ofWord? symbol n = .ok v) :
    v.Finite := by
  cases n with
  | none => cases h
  | some n =>
    cases h
    trivial

private theorem Value.finite_of_ofInt {n : Int} (h : ofInt symbol n = .ok v) : v.Finite :=
  finite_of_ofWord? h

private theorem Value.finite_of_ofReal {x : Binary64} (h : ofReal symbol x = .ok v) : v.Finite := by
  unfold ofReal at h
  split at h
  · rename_i hx
    cases h
    exact hx
  · cases h

private theorem Value.finite_of_combineBy {ops : RealOps} {exact : Int → Int → Int}
    {rounded : Binary64 → Binary64 → Binary64}
    (h : combineBy ops symbol exact rounded v w = .ok u) : u.Finite := by
  unfold combineBy at h
  split at h
  · exact finite_of_ofInt h
  · exact finite_of_ofReal h

private theorem Value.finite_of_floorDivBy {ops : RealOps} (h : floorDivBy ops symbol v w = .ok u) :
    u.Finite := by
  unfold floorDivBy at h
  split at h
  · exact finite_of_ofWord? h
  · dsimp only at h
    split at h
    · exact finite_of_ofInt h
    · cases h

/-- Every operator looks at its result before it gives it, so its operands do not matter. -/
private theorem Value.finite_of_applyBy {ops : RealOps} {op : BinaryOp}
    (h : applyBy ops op v w = .ok u) : u.Finite := by
  cases op with
  | add | subtract | multiply => exact finite_of_combineBy h
  | divide =>
    simp only [applyBy] at h
    split at h
    · cases h
    · exact finite_of_ofReal h
  | div =>
    simp only [applyBy] at h
    split at h
    · cases h
    · exact finite_of_floorDivBy h

private theorem Value.Finite.applySign {op : UnaryOp} (hv : v.Finite) (h : applySign op v = .ok w) :
    w.Finite := by
  cases op with
  | plus =>
    cases h
    exact hv
  | minus =>
    cases v with
    | integer n => exact finite_of_ofInt h
    | real x =>
      cases h
      exact (Binary64.isFinite_negate x).trans hv

private theorem Store.Finite.get? {store : Store} {name : String} (hstore : store.Finite)
    (h : store.get? name = some v) : v.Finite :=
  hstore (name, v) (OrderedMap.mem_of_get? h)

private theorem Expr.finite_of_evalBy {ops : RealOps} {store : Store} {e : Expr}
    (hstore : store.Finite)
    (hreals : ∀ x ∈ e.reals, x.Finite) (h : e.evalBy ops store = .ok v) : v.Finite := by
  induction e generalizing v with
  | integer n =>
    cases h
    trivial
  | real x =>
    cases h
    exact hreals x (List.mem_singleton_self x)
  | var name =>
    rw [evalBy] at h
    split at h
    · rename_i hget
      cases h
      exact hstore.get? hget
    · cases h
  | binary left op right ihl ihr =>
    obtain ⟨x, -, h⟩ := bind_eq_ok_iff.mp h
    obtain ⟨y, -, h⟩ := bind_eq_ok_iff.mp h
    exact Value.finite_of_applyBy h
  | unary op operand ih =>
    obtain ⟨w, hw, h⟩ := bind_eq_ok_iff.mp h
    exact (ih hreals hw).applySign h

private theorem Expr.finite_of_eval {store : Store} {e : Expr} (hstore : store.Finite)
    (hreals : ∀ x ∈ e.reals, x.Finite) (h : e.eval store = .ok v) : v.Finite :=
  finite_of_evalBy hstore hreals ((evalBy_machine store e).trans h)

end Evaluation

section Reading

private theorem Expr.Fits.finite_reals {e : Expr} (h : e.Fits Binary64.Literal) :
    ∀ x ∈ e.reals, x.Finite := by
  induction e with
  | integer n => exact List.forall_mem_nil _
  | real x => exact List.forall_mem_singleton.mpr h.1
  | var name => exact List.forall_mem_nil _
  | binary left op right ihl ihr => exact List.forall_mem_append.mpr ⟨ihl h.1, ihr h.2⟩
  | unary op operand ih => exact ih h

private theorem Statement.mem_assignmentsAll {a : Assignment} {body : List Statement} :
    a ∈ Statement.assignmentsAll body ↔ ∃ s ∈ body, a ∈ s.assignments := by
  induction body with
  | nil => simp [Statement.assignmentsAll]
  | cons s ss ih => simp [Statement.assignmentsAll, ih]

private theorem Statement.Fits.finite_reals {s : Statement} (h : s.Fits Binary64.Literal) :
    ∀ a ∈ s.assignments, ∀ x ∈ a.value.reals, x.Finite := by
  induction h with
  | compound _ _ ih =>
    intro a ha
    obtain ⟨s, hs, ha⟩ := Statement.mem_assignmentsAll.mp ha
    exact ih s hs a ha
  | assign _ value_fits => exact List.forall_mem_singleton.mpr value_fits.finite_reals
  | skip => exact List.forall_mem_nil _

private theorem Program.finite_reals_of_ofString {source : String} {p : Program}
    (h : Program.ofString source = .ok p) :
    ∀ a ∈ Statement.assignmentsAll p.body, ∀ x ∈ a.value.reals, x.Finite :=
  (Program.wellFormed_of_ofString h).body_fits.finite_reals

end Reading

section Sessions

private theorem Store.finite_empty : Store.empty.Finite := List.forall_mem_nil _

private theorem Store.Finite.put {store : Store} {v : Value} (hstore : store.Finite) (hv : v.Finite)
    (name : String) : (store.put name v).Finite := by
  intro entry hentry
  rcases OrderedMap.mem_entries_put hentry with rfl | hentry
  · exact hv
  · exact hstore entry hentry

namespace Session

variable {as : List Assignment} {s s' : Session} {sessions : List Session}

private theorem Leads.finite (h : Leads as s sessions s')
    (has : ∀ a ∈ as, ∀ x ∈ a.value.reals, x.Finite)
    (hs : s.store.Finite) : ∀ t ∈ s :: sessions, t.store.Finite := by
  induction h with
  | nil => exact List.forall_mem_singleton.mpr hs
  | @cons s s' a v sessions written value _ ih =>
    have hnext : (s.assign a.target v).store.Finite :=
      hs.put (Expr.finite_of_eval hs (has a written) value) a.target
    exact List.forall_mem_cons.mpr ⟨hs, ih hnext⟩

private theorem Leads.last_mem (h : Leads as s sessions s') : s' ∈ s :: sessions := by
  induction h with
  | nil => exact List.mem_singleton_self _
  | cons _ _ _ ih => exact List.mem_cons_of_mem _ ih

/-- The programs among texts; the other texts are not run. -/
def programs (sources : List String) : List Program :=
  sources.filterMap fun source => (Program.ofString source).toOption

private theorem finite_reals_of_programs (sources : List String) :
    ∀ a ∈ (programs sources).flatMap fun p => Statement.assignmentsAll p.body,
      ∀ x ∈ a.value.reals, x.Finite := by
  intro a ha
  obtain ⟨p, hp, ha⟩ := List.mem_flatMap.mp ha
  obtain ⟨source, -, hp⟩ := List.mem_filterMap.mp hp
  cases hread : Program.ofString source with
  | error e =>
    rw [hread] at hp
    cases hp
  | ok q =>
    rw [hread] at hp
    cases hp
    exact Program.finite_reals_of_ofString hread a ha

/-- While texts are run in a new session, at every point of it and when they are over, all values in
the store are finite, and so is the value of every expression that is read from a text and evaluated
there. The operations on reals have no part in this: with any others in their place, a value is
finite as soon as the store and the literals are. -/
theorem always_finite :
    (∀ sources : List String,
      (start.runAll (programs sources)).2 ∈ start :: start.history (programs sources) ∧
        ∀ s ∈ start :: start.history (programs sources),
          s.store.Finite ∧ ∀ text e v, Expr.ofString text = .ok e →
            e.eval s.store = .ok v → v.Finite) ∧
    ∀ (store : Store) (e : Expr), e.evalBy .machine store = e.eval store ∧
      (store.Finite → (∀ x ∈ e.reals, x.Finite) →
        ∀ (ops : RealOps) (v : Value), e.evalBy ops store = .ok v → v.Finite) := by
  constructor
  · intro sources
    have hleads := leads_history start (programs sources)
    have hfinite := hleads.finite (finite_reals_of_programs sources) Store.finite_empty
    refine ⟨hleads.last_mem, fun s hs => ⟨hfinite s hs, ?_⟩⟩
    intro text e v hread heval
    exact Expr.finite_of_eval (hfinite s hs) (Expr.wellFormed_of_ofString hread).finite_reals heval
  · intro store e
    refine ⟨Expr.evalBy_machine store e, ?_⟩
    intro hstore hreals ops v heval
    exact Expr.finite_of_evalBy hstore hreals heval

/-- Operations that give a NaN for everything do no harm: a sum is refused, and a sign, which needs
none of them, is applied. -/
theorem finite_without_numbers :
    let nan : Binary64 := ⟨false, Binary64.infinity + 1, by decide⟩
    let least : Binary64 := ⟨false, 1, by decide⟩
    let ops : RealOps := ⟨fun _ => nan, fun _ _ => nan, fun _ _ => nan, fun _ _ => nan,
      fun _ _ => nan, fun _ => 0⟩
    let store := Store.empty.put "a" (.real least)
    Expr.evalBy ops store (.binary (.var "a") .add (.integer 1)) = .error (.overflow "+") ∧
      ∃ v, Expr.evalBy ops store (.unary .minus (.var "a")) = .ok v ∧ v.Finite := by
  intro nan least ops store
  have hleast : least.Finite := rfl
  have hstore : store.Finite := List.forall_mem_singleton.mpr hleast
  have hvalue : Expr.evalBy ops store (.unary .minus (.var "a")) = .ok (.real least.negate) := rfl
  have hfinite := (always_finite.2 store (.unary .minus (.var "a"))).2 hstore
    (List.forall_mem_nil _) ops _ hvalue
  exact ⟨rfl, _, hvalue, hfinite⟩

end Session

end Sessions

end MiniPascal
