import MiniPascal.Proofs.Scope.Cursor

/-!
What was checked before makes no difference. Behind the scopes of earlier programs the scopes of a
program are those of a check on its own, with other numbers; a step does the same there, so the
whole check does. `Survey.check_of_history` states this for programs of any number in front.
-/

set_option autoImplicit false
set_option relaxedAutoImplicit false

namespace MiniPascal

open ScopeTable (outermost)

namespace ScopeTable

/-- The number that scope `i` of another table has behind the scopes of this one. The outermost
scope is in both. -/
def numberBehind (old : ScopeTable) (i : Nat) : Nat :=
  if i = outermost then outermost else i + (old.scopes.size - 1)

end ScopeTable

def Scope.behind (old : ScopeTable) (s : Scope) : Scope :=
  { s with parent := s.parent.map old.numberBehind }

def Step.behind (old : ScopeTable) : Step → Step
  | .enter b => .enter { b with parent := old.numberBehind b.parent }
  | .declare i d => .declare (old.numberBehind i) d
  | .use i names => .use (old.numberBehind i) names

/-- All scopes of `old`, and behind them those of `t` but the outermost. -/
def ScopeTable.behind (old t : ScopeTable) : ScopeTable :=
  ⟨(old.scopes.toList ++ t.scopes.toList.tail.map (Scope.behind old)).toArray⟩

def Survey.behind (old s : Survey) : Survey :=
  ⟨old.table.behind s.table, old.declared ++ s.declared⟩

def ScopeTable.Rooted (t : ScopeTable) : Prop := t.scopes[outermost]? = some .builtins

namespace ScopeTable

section Numbers

variable {old t : ScopeTable} {i j : Nat}

private theorem Rooted.size_pos (h : t.Rooted) : 0 < t.scopes.size :=
  (Array.getElem?_eq_some_iff.mp h).1

private theorem numberBehind_of_pos (hi : 0 < i) : old.numberBehind i = i + (old.scopes.size - 1) :=
  if_neg (Nat.ne_of_gt hi)

private theorem numberBehind_lt_iff : old.numberBehind j < old.numberBehind i ↔ j < i := by
  unfold numberBehind outermost
  split <;> split <;> omega

private theorem numberBehind_inj : old.numberBehind j = old.numberBehind i ↔ j = i := by
  unfold numberBehind outermost
  split <;> split <;> omega

private theorem size_le_numberBehind (hi : 0 < i) : old.scopes.size ≤ old.numberBehind i := by
  rw [numberBehind_of_pos hi]
  omega

private theorem exists_numberBehind (hold : old.Rooted) (h : old.scopes.size ≤ j) :
    ∃ i, 0 < i ∧ old.numberBehind i = j := by
  have hpos := hold.size_pos
  refine ⟨j - (old.scopes.size - 1), by omega, ?_⟩
  rw [numberBehind_of_pos (by omega)]
  omega

end Numbers

section Behind

variable {old t : ScopeTable} {i : Nat}

private theorem behind_start : old.behind start = old := by
  simp [behind, start]

private theorem getElem?_behind_of_lt {j : Nat} (hj : j < old.scopes.size) :
    (old.behind t).scopes[j]? = old.scopes[j]? := by
  rw [behind, List.getElem?_toArray, List.getElem?_append_left hj, Array.getElem?_toList]

private theorem Rooted.openIn (ht : t.Rooted) (parent : Nat) (name : String) :
    (t.openIn parent name).Rooted :=
  ((t.extends_openIn parent name).kept _ ht.size_pos).trans ht

private theorem Rooted.add (ht : t.Rooted) (hi : 0 < i) (x : Symbol) : (t.add i x).Rooted := by
  have hne : i ≠ outermost := Nat.ne_of_gt hi
  rw [Rooted, getElem?_add, if_neg hne]
  exact ht

variable (hold : old.Rooted) (ht : t.Rooted)

include hold ht

private theorem getElem?_behind (i : Nat) :
    (old.behind t).scopes[old.numberBehind i]? = t.scopes[i]?.map (Scope.behind old) := by
  rcases Nat.eq_zero_or_pos i with rfl | hi
  · have hroot : t.scopes[0]? = some .builtins := ht
    rw [show old.numberBehind 0 = 0 from rfl, getElem?_behind_of_lt hold.size_pos, hroot]
    exact hold
  · have hpos := hold.size_pos
    have hlength : old.scopes.toList.length ≤ old.numberBehind i := size_le_numberBehind hi
    have hrest : old.numberBehind i - old.scopes.toList.length = i - 1 := by
      rw [numberBehind_of_pos hi, Array.length_toList]
      omega
    rw [behind, List.getElem?_toArray, List.getElem?_append_right hlength, hrest,
      List.getElem?_map, List.getElem?_tail, Nat.sub_add_cancel hi, Array.getElem?_toList]

private theorem get?_behind (i : Nat) (name : String) :
    (old.behind t).get? (old.numberBehind i) name = t.get? i name := by
  rw [get?, getElem?_behind hold ht, get?, Option.bind_map]
  rfl

private theorem nameOf_behind (i : Nat) :
    (old.behind t).nameOf (old.numberBehind i) = t.nameOf i := by
  rw [nameOf, getElem?_behind hold ht, nameOf, Option.map_map]
  rfl

private theorem parent?_behind (i : Nat) :
    (old.behind t).parent? (old.numberBehind i) = (t.parent? i).map old.numberBehind := by
  rw [parent?, getElem?_behind hold ht, parent?, Option.bind_map, Option.map_bind]
  rfl

private theorem lookup_behind (i : Nat) (name : String) :
    (old.behind t).lookup (old.numberBehind i) name = t.lookup i name := by
  induction i using Nat.strongRecOn with
  | _ i ih =>
    rw [lookup, get?_behind hold ht, parent?_behind hold ht, lookup]
    cases t.get? i name with
    | some x => rfl
    | none =>
      cases t.parent? i with
      | none => rfl
      | some j =>
        simp only [Option.map_some, numberBehind_lt_iff]
        by_cases hj : j < i
        · simp only [hj, if_true]
          exact ih j hj
        · simp only [hj, if_false]

private theorem outwards?_behind (i n : Nat) :
    (old.behind t).outwards? (old.numberBehind i) n = (t.outwards? i n).map old.numberBehind := by
  induction n generalizing i with
  | zero => rfl
  | succ n ih =>
    rw [outwards?, parent?_behind hold ht, outwards?, Option.bind_map, Option.map_bind]
    exact Option.bind_congr fun j _ => ih j

theorem outwards?_of_size_le {n j : Nat} (hi : old.scopes.size ≤ i)
    (h : (old.behind t).outwards? i n = some j) : j = outermost ∨ old.scopes.size ≤ j := by
  obtain ⟨k, -, rfl⟩ := exists_numberBehind hold hi
  rw [outwards?_behind hold ht, Option.map_eq_some_iff] at h
  obtain ⟨l, -, rfl⟩ := h
  rcases Nat.eq_zero_or_pos l with rfl | hl
  · exact .inl rfl
  · exact .inr (size_le_numberBehind hl)

private theorem openIn_behind (i : Nat) (name : String) :
    (old.behind t).openIn (old.numberBehind i) name = old.behind (t.openIn i name) := by
  have hne : t.scopes.toList ≠ [] := by
    rw [← List.length_pos_iff, Array.length_toList]
    exact ht.size_pos
  have hlevel : ((old.behind t).scopes[old.numberBehind i]?.map Scope.level).getD 0 =
      (t.scopes[i]?.map Scope.level).getD 0 := by
    rw [getElem?_behind hold ht, Option.map_map]
    rfl
  rw [openIn, hlevel, openIn]
  simp only [behind, List.push_toArray, List.append_assoc, Array.toList_push,
    List.tail_append_of_ne_nil hne, List.map_append, List.map_singleton]
  rfl

private theorem add_behind (hi : 0 < i) (x : Symbol) :
    (old.behind t).add (old.numberBehind i) x = old.behind (t.add i x) := by
  have hadd := ht.add hi x
  have hscopes : ((old.behind t).add (old.numberBehind i) x).scopes =
      (old.behind (t.add i x)).scopes := by
    apply Array.ext_getElem?
    intro j
    rw [getElem?_add]
    by_cases hj : j < old.scopes.size
    · have hle : old.scopes.size ≤ old.numberBehind i := size_le_numberBehind hi
      have hne : old.numberBehind i ≠ j := by omega
      rw [if_neg hne, getElem?_behind_of_lt hj, getElem?_behind_of_lt hj]
    · obtain ⟨m, -, rfl⟩ := exists_numberBehind hold (Nat.le_of_not_lt hj)
      rw [getElem?_behind hold ht, getElem?_behind hold hadd, getElem?_add]
      simp only [numberBehind_inj]
      split
      · rw [Option.map_map, Option.map_map]
        rfl
      · rfl
  exact congrArg mk hscopes

end Behind

end ScopeTable

def Step.From (n : Nat) : Step → Prop
  | .enter _ => True
  | .declare i _ | .use i _ => n ≤ i

namespace Survey

section Behind

variable {old s s' : Survey} {i : Nat}

private theorem behind_start : old.behind start = old := by
  rw [behind, show start.table = .start from rfl, ScopeTable.behind_start]
  simp [start]

private theorem rooted_perform (hs : s.table.Rooted) {step : Step} (hfrom : step.From 1)
    (h : s.perform step = (.ok (), s')) : s'.table.Rooted := by
  rcases perform_cases h with ⟨b, rfl, htable⟩ | ⟨i, d, x, rfl, -, -, htable⟩ |
    ⟨i, names, rfl, htable⟩
  · rw [htable]
    exact hs.openIn b.parent b.name
  · rw [htable]
    exact hs.add hfrom x
  · rwa [htable]

variable (hold : old.table.Rooted) (hs : s.table.Rooted)

include hold hs

private theorem complaint?_behind (i : Nat) (name : String) :
    (old.behind s).complaint? (old.table.numberBehind i) name = s.complaint? i name := by
  have hlookup := ScopeTable.lookup_behind hold hs i name
  simp only [complaint?, behind, hlookup]

private theorem checkNames_behind (i : Nat) (names : List String) :
    (old.behind s).checkNames (old.table.numberBehind i) names = s.checkNames i names := by
  have hcomplaints : (old.behind s).complaint? (old.table.numberBehind i) = s.complaint? i :=
    funext (complaint?_behind hold hs i)
  rw [checkNames, hcomplaints]
  rfl

private theorem declare_behind (hi : 0 < i) (x : Symbol) :
    (old.behind s).declare (old.table.numberBehind i) x = (s.declare i x).map id old.behind := by
  have hget := ScopeTable.get?_behind hold hs i x.name
  have hname := ScopeTable.nameOf_behind hold hs i
  have hadd := ScopeTable.add_behind hold hs hi x
  unfold declare
  simp only [behind, hget, hname, hadd]
  cases s.table.get? i x.name with
  | some y => simp [behind]
  | none => simp [behind]

private theorem perform_behind {step : Step} (hfrom : step.From 1) :
    (old.behind s).perform (step.behind old.table) = (s.perform step).map id old.behind := by
  cases step with
  | enter b =>
    have hopen := ScopeTable.openIn_behind hold hs b.parent b.name
    simp only [Step.behind, perform, openIn, behind, hopen, Prod.map, id_eq]
  | declare i d =>
    cases d with
    | var name type =>
      simp only [Step.behind, perform, checkDeclaration]
      rw [show (old.behind s).table = old.table.behind s.table from rfl,
        ScopeTable.lookup_behind hold hs]
      split
      · exact declare_behind hold hs hfrom _
      · rfl
    | procedure name ds body => exact declare_behind hold hs hfrom _
  | use i names =>
    simp only [Step.behind, perform, checkNames_behind hold hs, Prod.map, id_eq]

private theorem performAll_behind {steps : List Step} (hfrom : ∀ step ∈ steps, step.From 1) :
    (old.behind s).performAll (steps.map (Step.behind old.table)) =
      (s.performAll steps).map id old.behind := by
  induction steps generalizing s with
  | nil => rfl
  | cons step steps ih =>
    obtain ⟨hstep, hsteps⟩ := List.forall_mem_cons.mp hfrom
    rw [List.map_cons, performAll, performAll, perform_behind hold hs hstep]
    rcases hperform : s.perform step with ⟨e | _, s'⟩
    · rfl
    · exact ih (rooted_perform hs hstep hperform) hsteps

end Behind

end Survey

section Steps

variable {n scope level next : Nat} {old : ScopeTable}

private theorem Step.from_ofBlock {b : Block} {inner : List Step} {body : List Statement}
    (hnumber : n ≤ next) (hinner : ∀ step ∈ inner, step.From n) :
    ∀ step ∈ Step.ofBlock next b inner body, step.From n := by
  refine List.forall_mem_cons.mpr ⟨trivial, List.forall_mem_append.mpr ⟨hinner, ?_⟩⟩
  exact List.forall_mem_singleton.mpr hnumber

mutual

private theorem Declaration.from_steps {scope level next : Nat} (hscope : n ≤ scope)
    (hnext : n ≤ next) : (d : Declaration) →
    ∀ step ∈ d.steps scope level next, step.From n
  | .var _ _ => List.forall_mem_singleton.mpr hscope
  | .procedure _ declarations _ =>
    List.forall_mem_cons.mpr ⟨hscope, Step.from_ofBlock hnext
      (Declaration.from_stepsAll hnext (Nat.le_succ_of_le hnext) declarations)⟩

private theorem Declaration.from_stepsAll {scope level next : Nat} (hscope : n ≤ scope)
    (hnext : n ≤ next) : (ds : List Declaration) →
    ∀ step ∈ Declaration.stepsAll scope level next ds, step.From n
  | [] => List.forall_mem_nil _
  | d :: ds =>
    List.forall_mem_append.mpr ⟨Declaration.from_steps hscope hnext d,
      Declaration.from_stepsAll hscope (Nat.le_add_right_of_le hnext) ds⟩

end

theorem Program.from_steps (p : Program) (next : Nat) : ∀ step ∈ p.steps next, step.From next :=
  Step.from_ofBlock (Nat.le_refl next)
    (Declaration.from_stepsAll (Nat.le_refl next) (Nat.le_succ next) p.declarations)

private theorem Step.length_entered_behind (steps : List Step) :
    (Step.entered (steps.map (Step.behind old))).length = (Step.entered steps).length := by
  induction steps with
  | nil => rfl
  | cons step steps ih =>
    cases step with
    | enter b => exact congrArg (· + 1) ih
    | declare i d => exact ih
    | use i names => exact ih

private theorem Declaration.length_blocks_of_steps {d : Declaration} {scope' next' : Nat}
    (h : d.steps scope' level next' = (d.steps scope level next).map (Step.behind old)) :
    (d.blocks scope' level next').length = (d.blocks scope level next).length := by
  rw [← Declaration.entered_steps, h, Step.length_entered_behind, Declaration.entered_steps]

private theorem Step.map_behind_ofBlock (hnext : 0 < next) (b : Block) (inner : List Step)
    (body : List Statement) :
    (Step.ofBlock next b inner body).map (Step.behind old) =
      Step.ofBlock (next + (old.scopes.size - 1)) { b with parent := old.numberBehind b.parent }
        (inner.map (Step.behind old)) body := by
  rw [Step.ofBlock, List.map_cons, List.map_append, ← ScopeTable.numberBehind_of_pos hnext]
  rfl

mutual

private theorem Declaration.steps_behind (scope level : Nat) {next : Nat} (hnext : 0 < next) :
    (d : Declaration) → d.steps (old.numberBehind scope) level (next + (old.scopes.size - 1)) =
      (d.steps scope level next).map (Step.behind old)
  | .var _ _ => rfl
  | .procedure name declarations body => by
    have hinner := Declaration.stepsAll_behind next (level + 1) (Nat.succ_pos next) declarations
    rw [Nat.succ_eq_add_one, ScopeTable.numberBehind_of_pos hnext, Nat.add_right_comm] at hinner
    rw [Declaration.steps, hinner, Declaration.steps, List.map_cons,
      Step.map_behind_ofBlock hnext]
    rfl

private theorem Declaration.stepsAll_behind (scope level : Nat) {next : Nat} (hnext : 0 < next) :
    (ds : List Declaration) →
    Declaration.stepsAll (old.numberBehind scope) level (next + (old.scopes.size - 1)) ds =
      (Declaration.stepsAll scope level next ds).map (Step.behind old)
  | [] => rfl
  | d :: ds => by
    have hfirst := Declaration.steps_behind scope level hnext d
    have hrest := Declaration.stepsAll_behind scope level
      (Nat.lt_of_lt_of_le hnext (Nat.le_add_right next (d.blocks scope level next).length)) ds
    rw [Declaration.stepsAll, Declaration.length_blocks_of_steps hfirst, Nat.add_right_comm, hrest,
      hfirst, Declaration.stepsAll, List.map_append]

end

private theorem Program.steps_behind (hold : old.Rooted) (p : Program) :
    p.steps old.scopes.size = (p.steps 1).map (Step.behind old) := by
  have hsize : 1 + (old.scopes.size - 1) = old.scopes.size := by
    have := hold.size_pos
    omega
  have hinner : Declaration.stepsAll (old.numberBehind 1) 2 (2 + (old.scopes.size - 1))
      p.declarations = (Declaration.stepsAll 1 2 2 p.declarations).map (Step.behind old) :=
    Declaration.stepsAll_behind 1 2 Nat.two_pos p.declarations
  have hnext : 2 + (old.scopes.size - 1) = old.scopes.size + 1 := by omega
  rw [ScopeTable.numberBehind_of_pos Nat.one_pos, hsize, hnext] at hinner
  rw [Program.steps, Program.steps, Step.map_behind_ofBlock Nat.one_pos, hsize, hinner]
  rfl

end Steps

namespace Survey

/-- A check behind others does what it does on its own. -/
theorem check_behind {old : Survey} (hold : old.table.Rooted) (p : Program) :
    old.check p = (start.check p).map id old.behind := by
  have hfrom : ∀ step ∈ p.steps 1, step.From 1 := p.from_steps 1
  have hstart : start.table.Rooted := rfl
  have hperform := performAll_behind hold hstart hfrom
  rw [behind_start, ← Program.steps_behind hold] at hperform
  rw [check_eq_performAll, hperform, check_eq_performAll]
  rfl

private theorem rooted_checkAll (ps : List Program) : (start.checkAll ps).table.Rooted :=
  (orderly_checkAll ps ScopeTable.orderly_start).outermost_eq

/-- After programs of any number, with errors or without, the check of a program begins in the
outermost scope and has the result that it has on its own. The scopes that it opens are those that
it opens on its own; only their numbers go on behind the scopes that were there, the outermost of
which stays what it is. In each of them every name stands for the same, and the way outwards does
not come to a scope of an earlier program. -/
theorem check_of_history (ps : List Program) (p : Program) :
    let s := start.checkAll ps
    let old := s.table
    let alone := (start.check p).2.table
    let t := (s.check p).2.table
    (Walk.start.visitAll ps).visit p = ((s.check p).1, ⟨(s.check p).2, outermost⟩) ∧
    (s.check p).1 = (start.check p).1 ∧
    t.scopes.toList = old.scopes.toList ++ (alone.scopes.toList.drop 1).map (Scope.behind old) ∧
    (s.check p).2.declared = s.declared ++ (start.check p).2.declared ∧
    ∀ i, 0 < i →
      (∀ name, t.lookup (i + (old.scopes.size - 1)) name = alone.lookup i name) ∧
      ∀ n j, t.outwards? (i + (old.scopes.size - 1)) n = some j →
        j = outermost ∨ old.scopes.size ≤ j := by
  intro s old alone t
  have hold : old.Rooted := rooted_checkAll ps
  have halone : alone.Rooted := rooted_checkAll [p]
  have hcheck := check_behind hold p
  have ht : t = old.behind alone := congrArg (fun r => r.2.table) hcheck
  refine ⟨?_, (Prod.ext_iff.mp hcheck).1, ?_, congrArg (fun r => r.2.declared) hcheck, ?_⟩
  · rw [show Walk.start.visitAll ps = _ from Walk.visitAll_eq start ps, Walk.visit_eq]
    rfl
  · rw [ht, List.drop_one]
    exact List.toList_toArray
  · intro i hi
    rw [ht, ← ScopeTable.numberBehind_of_pos hi]
    refine ⟨ScopeTable.lookup_behind hold halone i, fun n j hj => ?_⟩
    exact ScopeTable.outwards?_of_size_le hold halone (ScopeTable.size_le_numberBehind hi) hj

/-! The `a` of the first program is not seen in the second one, and does not clash with its `a` in
the third. -/

example :
    let p : Program := ⟨"p", [.var "a" "INTEGER"], []⟩
    let q : Program := ⟨"q", [], [.assign "a" (.integer 1)]⟩
    ((start.checkAll [p]).check q).1 = .error (.undeclared "a") ∧
      ((start.checkAll [p, q]).check p).1 = .ok () := by
  constructor <;> cbv

end Survey

end MiniPascal
