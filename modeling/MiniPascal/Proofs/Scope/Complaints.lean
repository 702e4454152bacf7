import MiniPascal.Proofs.Printing.RoundTrip
import MiniPascal.Proofs.Scope.History
import MiniPascal.Proofs.Scope.Mirror

/-!
What can be wrong with the names of a program that was read. The names in it are no reserved words,
so no declaration hides a builtin type, and a type is never unknown; and a name that stands for
something else than a variable is that of a procedure. `Program.complaints_of_read` states this
whatever was checked before.
-/

set_option autoImplicit false
set_option relaxedAutoImplicit false

namespace MiniPascal

open ScopeTable (outermost)
open Step (entered declaredIn)

def Step.Proper : Step → Prop
  | .enter _ => True
  | .declare _ (.var name type) => IsName name ∧ IsType type
  | .declare _ (.procedure name _ _) => IsName name
  | .use _ names => ∀ name ∈ names, IsName name

section Proper

variable {real : Binary64 → Prop}

private theorem Expr.Fits.isName {e : Expr} (h : e.Fits real) : ∀ name ∈ e.names, IsName name := by
  induction e with
  | integer n => exact List.forall_mem_nil _
  | real x => exact List.forall_mem_nil _
  | var name => exact List.forall_mem_singleton.mpr h
  | binary left op right ihl ihr => exact List.forall_mem_append.mpr ⟨ihl h.1, ihr h.2⟩
  | unary op operand ih => exact ih h

private theorem Statement.mem_namesAll {name : String} {body : List Statement} :
    name ∈ Statement.namesAll body ↔ ∃ s ∈ body, name ∈ s.names := by
  induction body with
  | nil => simp [Statement.namesAll]
  | cons s ss ih => simp [Statement.namesAll, ih]

private theorem Statement.Fits.isName {s : Statement} (h : s.Fits real) :
    ∀ name ∈ s.names, IsName name := by
  induction h with
  | compound _ _ ih =>
    intro name hname
    obtain ⟨s, hs, hname⟩ := Statement.mem_namesAll.mp hname
    exact ih s hs name hname
  | assign target_name value_fits => exact List.forall_mem_cons.mpr ⟨target_name, value_fits.isName⟩
  | skip => exact List.forall_mem_nil _

private theorem Step.proper_ofBlock {number : Nat} {b : Block} {inner : List Step}
    {body : List Statement}
    (hinner : ∀ step ∈ inner, step.Proper) (hbody : (Statement.compound body).Fits real) :
    ∀ step ∈ Step.ofBlock number b inner body, step.Proper := by
  refine List.forall_mem_cons.mpr ⟨trivial, List.forall_mem_append.mpr ⟨hinner, ?_⟩⟩
  exact List.forall_mem_singleton.mpr hbody.isName

private theorem Declaration.proper_stepsAll_of {ds : List Declaration}
    (h : ∀ d ∈ ds, ∀ scope level next, ∀ step ∈ d.steps scope level next, step.Proper)
    (scope level next : Nat) :
    ∀ step ∈ Declaration.stepsAll scope level next ds, step.Proper := by
  induction ds generalizing next with
  | nil => exact List.forall_mem_nil _
  | cons d ds ih =>
    obtain ⟨hd, hds⟩ := List.forall_mem_cons.mp h
    exact List.forall_mem_append.mpr ⟨hd scope level next, ih hds _⟩

private theorem Declaration.Fits.proper_steps {d : Declaration} (h : d.Fits real) :
    ∀ scope level next, ∀ step ∈ d.steps scope level next, step.Proper := by
  induction h with
  | var var_name var_type =>
    exact fun _ _ _ => List.forall_mem_singleton.mpr ⟨var_name, var_type⟩
  | procedure procedure_name _ _ body_fits ih =>
    intro scope level next
    refine List.forall_mem_cons.mpr ⟨procedure_name, Step.proper_ofBlock ?_ body_fits⟩
    exact Declaration.proper_stepsAll_of ih _ _ _

private theorem Program.Fits.proper_steps {p : Program} (h : p.Fits real) (next : Nat) :
    ∀ step ∈ p.steps next, step.Proper := by
  refine Step.proper_ofBlock ?_ h.body_fits
  exact Declaration.proper_stepsAll_of (fun d hd => (h.each d hd).proper_steps) _ _ _

private theorem IsName.ne_text {name : String} (h : IsName name) (type : BuiltinType) :
    type.text ≠ name := by
  cases type with
  | integer => exact h.2 .integer
  | real => exact h.2 .real

private theorem IsType.exists_builtin {type : String} (h : IsType type) :
    ∃ builtin : BuiltinType, builtin.text = type := by
  rcases h with rfl | rfl
  · exact ⟨.integer, rfl⟩
  · exact ⟨.real, rfl⟩

private theorem Step.Proper.isName_of_declares {i : Nat} {d : Declaration} {x : Symbol}
    (h : (Step.declare i d).Proper) (hdeclares : Declares d x) : IsName x.name := by
  cases hdeclares with
  | var => exact h.1
  | procedure => exact h

private theorem Step.mem_declaredIn {i : Nat} {d : Declaration} {steps : List Step} :
    d ∈ declaredIn i steps ↔ .declare i d ∈ steps := by
  induction steps with
  | nil => simp [declaredIn]
  | cons step steps ih =>
    cases step with
    | enter b => simpa [declaredIn] using ih
    | declare j d' =>
      rw [declaredIn_declare]
      by_cases hj : j = i
      · simp [hj, ih]
      · simp [hj, ih, Ne.symm hj]
    | use j names => simpa [declaredIn] using ih

end Proper

namespace ScopeTable

variable {t t' : ScopeTable} {i : Nat} {name : String} {x : Symbol}

private theorem mem_symbols_of_get? (h : t.get? i name = some x) :
    ∃ s, t.scopes[i]? = some s ∧ x ∈ s.symbols := by
  obtain ⟨s, hs, hscope⟩ := Option.bind_eq_some_iff.mp h
  exact ⟨s, hs, Scope.mem_symbols_of_get? hscope⟩

private theorem exists_scope_of_lookup (h : t.lookup i name = some x) :
    ∃ s, t.scopes[i]? = some s := by
  cases hs : t.scopes[i]? with
  | some s => exact ⟨s, rfl⟩
  | none =>
    rw [lookup, get?, parent?, hs] at h
    cases h

private theorem DrawsAll.exists_declares {steps : List Step} (h : t.DrawsAll steps t') {j : Nat}
    (hx : t'.get? (t.scopes.size + j) name = some x) :
    ∃ b d, (entered steps)[j]? = some b ∧ .declare (t.scopes.size + j) d ∈ steps ∧
      Declares d x := by
  obtain ⟨s', hs', hmem⟩ := mem_symbols_of_get? hx
  have hinside := (Array.getElem?_eq_some_iff.mp hs').1
  rw [h.size_eq, Nat.add_lt_add_iff_left] at hinside
  have hb := List.getElem?_eq_getElem hinside
  have hlaid := t.getElem?_laid_size_add (entered steps) j
  rw [hb, Option.map_some] at hlaid
  obtain ⟨s'', hs'', hfilled⟩ := h.filled _ _ hlaid
  rw [hs'] at hs''
  cases hs''
  have hall : ∀ x ∈ s'.symbols, ∃ d ∈ declaredIn (t.scopes.size + j) steps, Declares d x :=
    forall_mem_of_forall₂ hfilled.declares fun d hd _ hdeclares => ⟨d, hd, hdeclares⟩
  obtain ⟨d, hd, hdeclares⟩ := hall x hmem
  exact ⟨_, d, hb, Step.mem_declaredIn.mp hd, hdeclares⟩

private theorem Orderly.lookup_isSome (h : t.Orderly) {s : Scope} (hs : t.scopes[i]? = some s)
    (houter : (t.get? outermost name).isSome) : (t.lookup i name).isSome := by
  refine h.induction (motive := fun i _ => (t.lookup i name).isSome) ?_ ?_ hs
  · rwa [h.lookup_outermost]
  · intro i s j outer hj hlt _ ih
    rw [lookup_of_parent hj hlt, Option.isSome_or, ih, Bool.or_true]

end ScopeTable

namespace Survey

private theorem perform_eq_error_cases {s s' : Survey} {step : Step} {e : NameError}
    (h : s.perform step = (.error e, s')) :
    (∃ name scope, e = .duplicate name scope) ∨
    (∃ i name type, step = .declare i (.var name type) ∧ e = .unknownType type ∧
      ∀ builtin, s.table.lookup i type ≠ some (.builtin builtin)) ∨
    ∃ i names, step = .use i names ∧ ∃ name ∈ names, s.complaint? i name = some e := by
  have hdeclare : ∀ {i x}, s.declare i x = (.error e, s') →
      ∃ name scope, e = .duplicate name scope := by
    intro i x h
    unfold declare at h
    simp only at h
    split at h
    · cases h
      exact ⟨_, _, rfl⟩
    · cases h
  cases step with
  | enter b => cases h
  | declare i d =>
    cases d with
    | var name type =>
      rw [perform, checkDeclaration] at h
      split at h
      · exact .inl (hdeclare h)
      · rename_i hunknown
        cases h
        exact .inr (.inl ⟨i, name, type, rfl, rfl, hunknown⟩)
    | procedure name ds body => exact .inl (hdeclare h)
  | use i names =>
    rw [perform, checkNames, Prod.mk.injEq] at h
    obtain ⟨h, -⟩ := h
    split at h
    · rename_i e' hfound
      cases h
      exact .inr (.inr ⟨i, names, rfl, List.exists_of_findSome?_eq_some hfound⟩)
    · cases h

end Survey

/-- In scope `i` the name stands for a procedure of the program, whose blocks are numbered from `n`
on: the first scope outwards that has the name is that of a block in which the procedure is
declared. -/
def Program.MeansProcedure (p : Program) (n : Nat) (t : ScopeTable) (i : Nat) (name : String) :
    Prop :=
  ∃ m j b ds body, t.outwards? i m = some (n + j) ∧ (p.blocks n)[j]? = some b ∧
    .procedure name ds body ∈ b.declarations ∧ t.get? (n + j) name = some (.procedure name) ∧
    ∀ l k, t.outwards? i l = some k → l < m → t.get? k name = none

/-- A check of a program that was read, behind others, as far as it has come. -/
structure Midway (old : ScopeTable) (p : Program) (before : List Step) (t : ScopeTable) : Prop where
  begun : before <+: p.steps old.scopes.size
  drawn : old.DrawsAll before t
  proper : ∀ step ∈ before, step.Proper
  orderly : t.Orderly
  apart : ∀ i n j, old.scopes.size ≤ i → t.outwards? i n = some j →
    j = outermost ∨ old.scopes.size ≤ j

namespace Midway

variable {old t : ScopeTable} {p : Program} {before : List Step} {i : Nat} {name : String}
  {x : Symbol}

private theorem declares_or_builtin (h : Midway old p before t) (hi : old.scopes.size ≤ i)
    (hlookup : t.lookup i name = some x) :
    (∃ m j b d, t.outwards? i m = some (old.scopes.size + j) ∧
      (p.blocks old.scopes.size)[j]? = some b ∧ d ∈ b.declarations ∧ Declares d x ∧
      t.get? (old.scopes.size + j) name = some x ∧ IsName x.name ∧
      ∀ l k, t.outwards? i l = some k → l < m → t.get? k name = none) ∨
    ∃ type, x = .builtin type := by
  obtain ⟨s, hs⟩ := ScopeTable.exists_scope_of_lookup hlookup
  obtain ⟨m, k, hk, hx, hfirst⟩ := (h.orderly.lookup_eq_some_iff hs name x).mp hlookup
  rcases h.apart i m k hi hk with rfl | hsize
  · right
    obtain ⟨s, hs, hmem⟩ := ScopeTable.mem_symbols_of_get? hx
    rw [h.orderly.outermost_eq] at hs
    cases hs
    rcases List.mem_cons.mp hmem with rfl | hmem
    · exact ⟨_, rfl⟩
    · exact ⟨_, List.mem_singleton.mp hmem⟩
  · left
    obtain ⟨j, rfl⟩ := Nat.exists_eq_add_of_le hsize
    obtain ⟨b, d, hb, hd, hdeclares⟩ := h.drawn.exists_declares hx
    have hblock : (p.blocks old.scopes.size)[j]? = some b := by
      obtain ⟨more, hmore⟩ := Program.entered_of_begun h.begun
      rw [← hmore, List.getElem?_append_left (List.getElem?_eq_some_iff.mp hb).1, hb]
    have hdeclared := (Program.declaredIn_of_begun h.begun _).subset (Step.mem_declaredIn.mpr hd)
    rw [Block.declarationsAt_eq hblock] at hdeclared
    exact ⟨m, j, b, d, hk, hblock, hdeclared, hdeclares, hx,
      (h.proper _ hd).isName_of_declares hdeclares, hfirst⟩

/-- A builtin type is found from every scope, since no declaration can have its name. -/
private theorem lookup_type (h : Midway old p before t) (hi : old.scopes.size ≤ i)
    (hinside : i < t.scopes.size) {type : String} (htype : IsType type) :
    ∃ builtin, t.lookup i type = some (.builtin builtin) := by
  obtain ⟨builtin, rfl⟩ := htype.exists_builtin
  have houter : (t.get? outermost builtin.text).isSome := by
    rw [ScopeTable.get?, h.orderly.outermost_eq]
    cases builtin <;> rfl
  have hfound := h.orderly.lookup_isSome (Array.getElem?_eq_getElem hinside) houter
  obtain ⟨x, hx⟩ := Option.isSome_iff_exists.mp hfound
  rcases h.declares_or_builtin hi hx with ⟨_, _, _, _, _, _, _, _, _, hname, _⟩ | ⟨type, rfl⟩
  · rw [ScopeTable.name_of_lookup hx] at hname
    exact absurd rfl (hname.ne_text builtin)
  · exact ⟨type, hx⟩

private theorem meansProcedure (h : Midway old p before t) (hi : old.scopes.size ≤ i)
    (hname : IsName name) (hlookup : t.lookup i name = some x)
    (hvar : ∀ v type, x ≠ .var v type) : p.MeansProcedure old.scopes.size t i name := by
  have hown := ScopeTable.name_of_lookup hlookup
  rcases h.declares_or_builtin hi hlookup with
    ⟨m, j, b, d, hm, hblock, hd, hdeclares, hx, -, hfirst⟩ | ⟨type, rfl⟩
  · cases hdeclares with
    | var v type => exact absurd rfl (hvar v type)
    | procedure v ds body =>
      obtain rfl : v = name := hown
      exact ⟨m, j, b, ds, body, hm, hblock, hd, hx, hfirst⟩
  · exact absurd hown (hname.ne_text type)

end Midway

private theorem Survey.exists_midway (ps : List Program) {p : Program} {real : Binary64 → Prop}
    (hfits : p.Fits real) {e : NameError} :
    let s := start.checkAll ps
    let n := s.table.scopes.size
    (s.check p).1 = .error e →
    ∃ before step after reached, p.steps n = before ++ step :: after ∧
      s.performAll before = (.ok (), reached) ∧
      reached.perform step = (.error e, (s.check p).2) ∧
      Midway s.table p before reached.table ∧
      step.Proper ∧ step.From n ∧ step.Fits reached.table.levels := by
  intro s n herror
  have horderly : s.table.Orderly := orderly_checkAll ps ScopeTable.orderly_start
  have hbehind : (s.check p).2.table = s.table.behind (start.check p).2.table :=
    congrArg (fun r => r.2.table) (check_behind horderly.outermost_eq p)
  have halone : (start.check p).2.table.Rooted :=
    (orderly_check ScopeTable.orderly_start p).outermost_eq
  have hproper := hfits.proper_steps n
  have hfrom := p.from_steps n
  have hfit := fitAll_steps horderly.level_outermost p
  have hcheck : s.check p = (.error e, (s.check p).2) := Prod.ext herror rfl
  rw [check_eq_performAll] at hcheck
  obtain ⟨before, step, after, reached, hsplit, hbefore, hstep⟩ := performAll_eq_error hcheck
  rw [← check_eq_performAll] at hstep
  rw [hsplit, Step.fitAll_append] at hfit
  rw [hsplit, List.forall_mem_append, List.forall_mem_cons] at hproper hfrom
  have hdrawn := drawsAll_of_performAll hfit.1 hbefore
  refine ⟨before, step, after, reached, hsplit, hbefore, hstep, ?_, hproper.2.1, hfrom.2.1, ?_⟩
  · refine ⟨⟨step :: after, hsplit.symm⟩, hdrawn, hproper.1, horderly.drawsAll hdrawn, ?_⟩
    rw [← table_of_perform_eq_error hstep, hbehind]
    exact fun i m j => ScopeTable.outwards?_of_size_le horderly.outermost_eq halone
  · rw [hdrawn.levels_eq]
    exact hfit.2.1

namespace Program

/-- Whatever was checked before, the check of a program that was read finds no unknown type; and if
it finds a name that is no variable, this is one that a body uses where it stands for a procedure of
the program. -/
theorem complaints_of_read (ps : List Program) {source : String} {p : Program}
    (h : ofString source = .ok p) :
    let s := Survey.start.checkAll ps
    let n := s.table.scopes.size
    let r := s.check p
    (∀ type, r.1 ≠ .error (.unknownType type)) ∧
    ∀ name, r.1 = .error (.notVariable name) →
      ∃ before i names after, p.steps n = before ++ .use i names :: after ∧
        s.performAll before = (.ok (), r.2) ∧ name ∈ names ∧
        p.MeansProcedure n r.2.table i name := by
  intro s n r
  have hfits := wellFormed_of_ofString h
  constructor
  · intro type herror
    obtain ⟨before, step, after, reached, -, -, hstep, hmidway, hproper, hfrom, hfit⟩ :=
      Survey.exists_midway ps hfits herror
    rcases Survey.perform_eq_error_cases hstep with ⟨_, _, he⟩ | ⟨i, name, type, rfl, -, hunknown⟩ |
      ⟨i, names, rfl, name, hname, hcomplaint⟩
    · cases he
    · have hinside := hfit.2
      rw [ScopeTable.length_levels] at hinside
      obtain ⟨builtin, hfound⟩ := hmidway.lookup_type hfrom hinside hproper.2
      exact hunknown builtin hfound
    · unfold Survey.complaint? at hcomplaint
      split at hcomplaint <;> cases hcomplaint
  · intro name herror
    obtain ⟨before, step, after, reached, hsplit, hbefore, hstep, hmidway, hproper, hfrom, -⟩ :=
      Survey.exists_midway ps hfits herror
    rcases Survey.perform_eq_error_cases hstep with ⟨_, _, he⟩ | ⟨_, _, _, _, he, _⟩ |
      ⟨i, names, rfl, name', hname, hcomplaint⟩
    · cases he
    · cases he
    · -- To use names changes nothing, so the check ends with what was reached.
      obtain rfl : reached = r.2 := congrArg Prod.snd hstep
      unfold Survey.complaint? at hcomplaint
      split at hcomplaint
      · cases hcomplaint
      · rename_i x hvar hlookup
        cases hcomplaint
        exact ⟨before, i, names, after, hsplit, hbefore, hname,
          hmidway.meansProcedure hfrom (hproper name hname) hlookup hvar⟩
      · cases hcomplaint

/-- A procedure that is assigned in its own body, where a variable of an earlier program has its
name. -/
theorem assigns_procedure :
    let p : Program := ⟨"p", [.procedure "q" [] [.assign "q" (.integer 1)]], [.skip]⟩
    let s := Survey.start.checkAll [⟨"r", [.var "q" "REAL"], []⟩]
    ofString p.text = .ok p ∧ (s.check p).1 = .error (.notVariable "q") ∧
      ∃ i, p.MeansProcedure s.table.scopes.size (s.check p).2.table i "q" := by
  intro p s
  have hp : IsName "p" := ⟨by decide, fun w => by cases w <;> decide⟩
  have hq : IsName "q" := ⟨by decide, fun w => by cases w <;> decide⟩
  have hwell : p.WellFormed := by
    have hone : (Expr.integer 1).Fits Binary64.Literal := by
      change (0 : Int) ≤ Int64.toInt 1
      decide
    have hbody : (Statement.compound [.assign "q" (.integer 1)]).Fits Binary64.Literal :=
      .compound (List.cons_ne_nil _ _) (List.forall_mem_singleton.mpr (.assign hq hone))
    have hprocedure := Declaration.Fits.procedure hq .nil (List.forall_mem_nil _) hbody
    exact ⟨hp, List.pairwise_singleton _ _, List.forall_mem_singleton.mpr hprocedure,
      .compound (List.cons_ne_nil _ _) (List.forall_mem_singleton.mpr .skip)⟩
  have hread : ofString p.text = .ok p := hwell.ofString_text_eq_ok_iff.mpr ⟨by decide, rfl⟩
  have herror : (s.check p).1 = .error (.notVariable "q") := by
    rw [Survey.check_behind (Survey.orderly_checkAll _ ScopeTable.orderly_start).outermost_eq]
    change (Survey.start.check p).1 = _
    decide +kernel
  obtain ⟨_, i, _, _, -, -, -, hmeans⟩ := (complaints_of_read _ hread).2 "q" herror
  exact ⟨hread, herror, i, hmeans⟩

end Program

end MiniPascal
