import Mathlib.Data.List.Forall2
import MiniPascal.Interpretation
import MiniPascal.Proofs.Scope.Course

/-!
What is logged while the names of a program are checked. The declarations are recorded in the order
in which they are written, each before what is declared in it, and as far as the check comes.
`Program.logsChecking` says so.
-/

set_option autoImplicit false
set_option relaxedAutoImplicit false

namespace MiniPascal

mutual

/-- A declaration in a block of that name, and those in its own block behind it. -/
def Declaration.listed (block : String) : Declaration → List (String × Declaration)
  | .var name type => [(block, .var name type)]
  | .procedure name declarations body =>
    (block, .procedure name declarations body) :: Declaration.listedAll name declarations

def Declaration.listedAll (block : String) : List Declaration → List (String × Declaration)
  | [] => []
  | d :: ds => d.listed block ++ Declaration.listedAll block ds

end

def Program.listed (p : Program) : List (String × Declaration) :=
  Declaration.listedAll p.name p.declarations

/-- A declaration is recorded by what it declares and by the name of its block. -/
def Recorded (entry : String × Declaration) (record : Symbol × String) : Prop :=
  Declares entry.2 record.1 ∧ record.2 = entry.1

def Step.declarations (steps : List Step) : List Declaration :=
  steps.filterMap fun
    | .declare _ d => some d
    | _ => none

/-- The declarations that a check with this outcome reaches: all of them, or those before the step
that fails. A declaration that fails because its name is taken is reached as well. -/
inductive Program.Reaches (p : Program) :
    Except NameError Unit → List (String × Declaration) → Prop
  | all : Reaches p (.ok ()) p.listed
  | repeated {before after : List Step} {step : Step} {survey : Survey} {name scope : String}
      {reached : List (String × Declaration)} (split : p.steps 1 = before ++ step :: after)
      (passed : Survey.start.performAll before = (.ok (), survey))
      (fails : (survey.perform step).1 = .error (.duplicate name scope))
      (listed : reached <+: p.listed)
      (made : reached.map Prod.snd = Step.declarations (before ++ [step])) :
      Reaches p (.error (.duplicate name scope)) reached
  | stopped {before after : List Step} {step : Step} {survey : Survey} {e : NameError}
      {reached : List (String × Declaration)} (split : p.steps 1 = before ++ step :: after)
      (passed : Survey.start.performAll before = (.ok (), survey))
      (fails : (survey.perform step).1 = .error e)
      (other : ∀ name scope, e ≠ .duplicate name scope) (listed : reached <+: p.listed)
      (made : reached.map Prod.snd = Step.declarations before) : Reaches p (.error e) reached

/-- The log of a check: the program, and a record of each declaration that was reached. -/
inductive Program.LogsChecking (p : Program) : Except NameError Unit → List Event → Prop
  | checked {result : Except NameError Unit} {reached : List (String × Declaration)}
      {records : List (Symbol × String)} (reaches : p.Reaches result reached)
      (recorded : List.Forall₂ Recorded reached records) :
      LogsChecking p result
        (.resolving p.name :: records.map fun record => .declared record.1 record.2)

namespace Step

def namesAfter (names : List String) (steps : List Step) : List String :=
  names ++ (entered steps).map Block.name

def made (names : List String) : List Step → List (String × Declaration)
  | [] => []
  | .enter b :: steps => made (names ++ [b.name]) steps
  | .declare i d :: steps => (names[i]?.getD "", d) :: made names steps
  | .use _ _ :: steps => made names steps

variable {names : List String} {steps steps' : List Step}

private theorem made_append :
    made names (steps ++ steps') = made names steps ++ made (namesAfter names steps) steps' := by
  induction steps generalizing names with
  | nil => rw [List.nil_append, made, namesAfter, entered, List.filterMap_nil, List.map_nil,
      List.append_nil, List.nil_append]
  | cons step steps ih =>
    rw [List.cons_append]
    cases step with
    | enter b =>
      rw [made, made, ih, namesAfter, List.append_assoc]
      rfl
    | declare i d =>
      rw [made, made, ih]
      rfl
    | use i used =>
      rw [made, made, ih]
      rfl

private theorem made_prefix : made names steps <+: made names (steps ++ steps') :=
  made_append ▸ List.prefix_append _ _

private theorem namesAfter_append :
    namesAfter names (steps ++ steps') = namesAfter (namesAfter names steps) steps' := by
  rw [namesAfter, entered_append, List.map_append, ← List.append_assoc]
  rfl

private theorem map_snd_made : (made names steps).map Prod.snd = declarations steps := by
  induction steps generalizing names with
  | nil => rfl
  | cons step steps ih =>
    cases step with
    | enter b => exact ih
    | declare i d => exact congrArg (d :: ·) ih
    | use i used => exact ih

end Step

section Listed

open Step (made namesAfter)

variable {names : List String}

def IsListed (ds : List Declaration) : Prop :=
  ∀ (names : List String) (scope level : Nat) (block : String), names[scope]? = some block →
    made names (Declaration.stepsAll scope level names.length ds) = Declaration.listedAll block ds

private theorem made_ofBlock {ds : List Declaration} (h : IsListed ds) (names : List String)
    (block : String) (parent level : Nat) (body : List Statement) :
    made names (Step.ofBlock names.length ⟨block, parent, level, ds⟩
      (Declaration.stepsAll names.length (level + 1) (names.length + 1) ds) body) =
      Declaration.listedAll block ds := by
  have hblock : (names ++ [block])[names.length]? = some block := by simp
  have hinner := h _ _ (level + 1) _ hblock
  rw [List.length_append, List.length_singleton] at hinner
  rw [Step.ofBlock, made, Step.made_append, hinner]
  exact List.append_nil _

mutual

private theorem made_steps {names : List String} {scope : Nat} {block : String}
    (hscope : names[scope]? = some block) (level : Nat) : (d : Declaration) →
    made names (d.steps scope level names.length) = d.listed block
  | .var name type => by
    rw [Declaration.steps, made, hscope]
    rfl
  | .procedure name declarations body => by
    rw [Declaration.steps, made, hscope,
      made_ofBlock (isListed declarations) names name scope level body, Declaration.listed]
    rfl

private theorem isListed : (ds : List Declaration) → IsListed ds
  | [] => fun _ _ _ _ _ => rfl
  | d :: ds => by
    -- The blocks in `d` are numbered first, and the numbers go on behind them.
    intro names scope level block hscope
    have hinside := (List.getElem?_eq_some_iff.mp hscope).1
    have hscope' : (namesAfter names (d.steps scope level names.length))[scope]? = some block :=
      (List.getElem?_append_left hinside).trans hscope
    have hrest := isListed ds _ _ level _ hscope'
    rw [namesAfter, List.length_append, List.length_map, Declaration.entered_steps] at hrest
    rw [Declaration.stepsAll, Step.made_append, made_steps hscope level d, Declaration.listedAll,
      namesAfter, Declaration.entered_steps, hrest]

end

private theorem Program.made_steps (p : Program) : made ["builtins"] (p.steps 1) = p.listed :=
  made_ofBlock (isListed p.declarations) ["builtins"] p.name ScopeTable.outermost 1 p.body

end Listed

namespace ScopeTable

def names (t : ScopeTable) : List String := t.scopes.toList.map Scope.name

private theorem getElem?_names (t : ScopeTable) (i : Nat) :
    t.names[i]? = t.scopes[i]?.map Scope.name := by
  rw [names, List.getElem?_map, Array.getElem?_toList]

private theorem nameOf_eq (t : ScopeTable) (i : Nat) : t.nameOf i = t.names[i]?.getD "" := by
  rw [getElem?_names, nameOf]

private theorem names_openIn (t : ScopeTable) (parent : Nat) (name : String) :
    (t.openIn parent name).names = t.names ++ [name] := by
  rw [names, openIn, Array.toList_push, List.map_append]
  rfl

private theorem names_add (t : ScopeTable) (i : Nat) (x : Symbol) :
    (t.add i x).names = t.names := by
  apply List.ext_getElem?
  intro j
  simp only [getElem?_names, add, Array.getElem?_modify]
  split
  · rw [Option.map_map]
    rfl
  · rfl

end ScopeTable

namespace Survey

def Records (s : Survey) (entries : List (String × Declaration)) (s' : Survey) : Prop :=
  ∃ records, s'.declared.toList = s.declared.toList ++ records ∧
    List.Forall₂ Recorded entries records

variable {s s' s'' : Survey} {entries entries' : List (String × Declaration)} {step : Step}
  {steps : List Step} {e : NameError} {i : Nat} {x : Symbol}

private theorem Records.of_eq (h : s'.declared = s.declared) : Records s [] s' :=
  ⟨[], by rw [h, List.append_nil], .nil⟩

private theorem Records.trans (h : Records s entries s') (h' : Records s' entries' s'') :
    Records s (entries ++ entries') s'' := by
  obtain ⟨records, hdeclared, hrecords⟩ := h
  obtain ⟨records', hdeclared', hrecords'⟩ := h'
  refine ⟨records ++ records', ?_, List.rel_append hrecords hrecords'⟩
  rw [hdeclared', hdeclared, List.append_assoc]

private theorem declare_declared (s : Survey) (i : Nat) (x : Symbol) :
    (s.declare i x).2.declared = s.declared.push (x, s.table.nameOf i) := by
  unfold declare
  simp only
  split <;> rfl

private theorem exists_duplicate (h : s.declare i x = (.error e, s')) :
    ∃ name scope, e = .duplicate name scope := by
  unfold declare at h
  simp only at h
  split at h
  · cases h
    exact ⟨_, _, rfl⟩
  · cases h

private theorem records_declare {d : Declaration} (h : Declares d x) {r : Except NameError Unit}
    (hdeclare : s.declare i x = (r, s')) :
    Records s (Step.made s.table.names [.declare i d]) s' := by
  have hdeclared := s.declare_declared i x
  rw [hdeclare, ScopeTable.nameOf_eq] at hdeclared
  refine ⟨[(x, s.table.names[i]?.getD "")], ?_, .cons ⟨h, rfl⟩ .nil⟩
  rw [hdeclared, Array.toList_push]

private theorem records_perform (h : s.perform step = (.ok (), s')) :
    Records s (Step.made s.table.names [step]) s' := by
  cases step with
  | enter b =>
    cases h
    exact .of_eq rfl
  | declare i d =>
    rcases perform_declare s i d with ⟨type, hunknown⟩ | ⟨x, hdeclares, hperform⟩
    · rw [hunknown] at h
      cases h
    · rw [hperform] at h
      exact records_declare hdeclares h
  | use i used =>
    rw [perform, Prod.mk.injEq] at h
    exact .of_eq (h.2 ▸ rfl)

private theorem checkNames_ne_duplicate {used : List String} {name scope : String} :
    s.checkNames i used ≠ .error (.duplicate name scope) := by
  intro h
  unfold checkNames at h
  split at h
  · rename_i e hcomplaint
    cases h
    obtain ⟨used, -, hused⟩ := List.exists_of_findSome?_eq_some hcomplaint
    unfold complaint? at hused
    split at hused <;> cases hused
  · cases h

/-- So does a step that fails over a name that is taken, and any other one that fails records
nothing. -/
private theorem records_perform_error (h : s.perform step = (.error e, s')) :
    (∃ name scope, e = .duplicate name scope) ∧ Records s (Step.made s.table.names [step]) s' ∨
    (∀ name scope, e ≠ .duplicate name scope) ∧ Records s [] s' := by
  cases step with
  | enter b => cases h
  | declare i d =>
    rcases perform_declare s i d with ⟨type, hunknown⟩ | ⟨x, hdeclares, hperform⟩
    · rw [hunknown] at h
      cases h
      exact .inr ⟨nofun, .of_eq rfl⟩
    · rw [hperform] at h
      exact .inl ⟨exists_duplicate h, records_declare hdeclares h⟩
  | use i used =>
    rw [perform, Prod.mk.injEq] at h
    refine .inr ⟨?_, .of_eq (h.2 ▸ rfl)⟩
    rintro name scope rfl
    exact checkNames_ne_duplicate h.1

private theorem names_perform (h : s.perform step = (.ok (), s')) :
    s'.table.names = Step.namesAfter s.table.names [step] := by
  rcases perform_cases h with ⟨b, rfl, htable⟩ | ⟨i, d, x, rfl, -, -, htable⟩ |
    ⟨i, used, rfl, htable⟩
  · rw [htable, ScopeTable.names_openIn]
    rfl
  · rw [htable, ScopeTable.names_add]
    exact (List.append_nil _).symm
  · rw [htable]
    exact (List.append_nil _).symm

private theorem records_performAll (h : s.performAll steps = (.ok (), s')) :
    Records s (Step.made s.table.names steps) s' ∧
      s'.table.names = Step.namesAfter s.table.names steps := by
  induction steps generalizing s with
  | nil =>
    cases h
    exact ⟨.of_eq rfl, (List.append_nil _).symm⟩
  | cons step steps ih =>
    obtain ⟨next, hstep, hrest⟩ := performAll_cons_eq_ok h
    obtain ⟨hrecords, hnames⟩ := ih hrest
    rw [names_perform hstep] at hrecords hnames
    rw [← List.singleton_append, Step.made_append, Step.namesAfter_append]
    exact ⟨(records_perform hstep).trans hrecords, hnames⟩

end Survey

namespace Program

variable {p : Program} {survey : Survey} {e : NameError}

private theorem records_of_check (h : Survey.start.check p = (.ok (), survey)) :
    Survey.Records .start p.listed survey := by
  rw [Survey.check_eq_performAll] at h
  exact p.made_steps ▸ (Survey.records_performAll h).1

private theorem exists_reached_of_check (h : Survey.start.check p = (.error e, survey)) :
    ∃ reached, p.Reaches (.error e) reached ∧ Survey.Records .start reached survey := by
  rw [Survey.check_eq_performAll] at h
  obtain ⟨before, step, after, next, split, passed, fails⟩ := Survey.performAll_eq_error h
  change p.steps 1 = _ at split
  obtain ⟨hbefore, hnames⟩ := Survey.records_performAll passed
  rcases Survey.records_perform_error fails with ⟨⟨name, scope, rfl⟩, hstep⟩ | ⟨hother, hstep⟩
  · refine ⟨Step.made ["builtins"] (before ++ [step]),
      .repeated split passed (congrArg Prod.fst fails) ?_ Step.map_snd_made, ?_⟩
    · have hsplit : p.steps 1 = (before ++ [step]) ++ after := split.trans (List.append_cons ..)
      rw [← p.made_steps, hsplit]
      exact Step.made_prefix
    · rw [hnames] at hstep
      exact Step.made_append ▸ hbefore.trans hstep
  · refine ⟨Step.made ["builtins"] before,
      .stopped split passed (congrArg Prod.fst fails) hother ?_ Step.map_snd_made, ?_⟩
    · rw [← p.made_steps, split]
      exact Step.made_prefix
    · exact List.append_nil (Step.made ["builtins"] before) ▸ hbefore.trans hstep

/-- A check logs the declarations that it reaches. -/
theorem logsChecking (p : Program) : p.LogsChecking p.checkLogged.2 p.checkLogged.1 := by
  have hlog : p.checkLogged = (.resolving p.name ::
      (Survey.start.check p).2.declared.toList.map fun d => .declared d.1 d.2,
      (Survey.start.check p).1) := rfl
  rw [hlog]
  rcases hcheck : Survey.start.check p with ⟨e | _, survey⟩
  · obtain ⟨reached, hreaches, records, hdeclared, hrecords⟩ := exists_reached_of_check hcheck
    rw [hdeclared]
    exact .checked hreaches hrecords
  · obtain ⟨records, hdeclared, hrecords⟩ := records_of_check hcheck
    rw [hdeclared]
    exact .checked .all hrecords

/-! The second `b` is recorded, though its name is taken; `c` is not come to. -/

example :
    let p : Program := ⟨"p", [.procedure "q" [.var "a" "REAL"] [], .var "b" "INTEGER",
      .var "b" "REAL", .var "c" "REAL"], []⟩
    p.checkLogged.1 = [.resolving "p", .declared (.procedure "q") "p",
      .declared (.var "a" .real) "q", .declared (.var "b" .integer) "p",
      .declared (.var "b" .real) "p"] := by decide +kernel

end Program

end MiniPascal
