import Mathlib.Data.List.Forall2
import MiniPascal.Proofs.Token.Lexing
import MiniPascal.Tree.Basic

/-!
Well-formed trees: those that reading could have built. Which reals may stand in a tree is left
open, since printing can also write some that reading takes apart.
-/

set_option autoImplicit false
set_option relaxedAutoImplicit false

namespace MiniPascal

def IsType (type : String) : Prop := type = Reserved.integer.text ∨ type = Reserved.real.text

/-- No integer has a sign, and `real` tells the reals that may stand as literals. -/
def Expr.Fits (real : Binary64 → Prop) : Expr → Prop
  | .integer n => 0 ≤ n.toInt
  | .real x => real x
  | .var name => IsName name
  | .binary l _ r => l.Fits real ∧ r.Fits real
  | .unary _ e => e.Fits real

inductive Statement.Fits (real : Binary64 → Prop) : Statement → Prop
  | compound {body : List Statement} (some_statement : body ≠ [])
      (each : ∀ s ∈ body, Statement.Fits real s) : Statement.Fits real (.compound body)
  | assign {target : String} {value : Expr} (target_name : IsName target)
      (value_fits : value.Fits real) : Statement.Fits real (.assign target value)
  | skip : Statement.Fits real .skip

def Declaration.isVar : Declaration → Bool
  | .var _ _ => true
  | .procedure _ _ _ => false

def VarsFirst (ds : List Declaration) : Prop :=
  ds.Pairwise fun d d' => d'.isVar = true → d.isVar = true

inductive Declaration.Fits (real : Binary64 → Prop) : Declaration → Prop
  | var {name type : String} (var_name : IsName name) (var_type : IsType type) :
      Declaration.Fits real (.var name type)
  | procedure {name : String} {ds : List Declaration} {body : List Statement}
      (procedure_name : IsName name) (order : VarsFirst ds)
      (each : ∀ d ∈ ds, Declaration.Fits real d) (body_fits : (Statement.compound body).Fits real) :
      Declaration.Fits real (.procedure name ds body)

section Row

variable {real : Binary64 → Prop} {name : String} {ds ds' : List Declaration}
  {body : List Statement}

private theorem VarsFirst.tail {d : Declaration} (order : VarsFirst (d :: ds)) : VarsFirst ds :=
  (List.pairwise_cons.mp order).2

private theorem VarsFirst.procedures (order : VarsFirst (.procedure name ds' body :: ds)) :
    ∀ d ∈ ds, d.isVar = false := by
  intro d hd
  cases hvar : d.isVar with
  | false => rfl
  | true => exact absurd ((List.pairwise_cons.mp order).1 d hd hvar) Bool.false_ne_true

variable {motive : List Declaration → Prop} (nil : motive [])
  (var : ∀ name type ds, IsName name → IsType type → motive ds → motive (.var name type :: ds))
  (procedure : ∀ name ds' body ds, IsName name → VarsFirst ds' →
    (Statement.compound body).Fits real → (∀ d ∈ ds, d.isVar = false) → motive ds' → motive ds →
    motive (.procedure name ds' body :: ds))

include nil var procedure

private theorem rowInduction_of (order : VarsFirst ds) (each : ∀ d ∈ ds, d.Fits real)
    (inner : ∀ d ∈ ds, ∀ name ds' body, d = .procedure name ds' body → motive ds') : motive ds := by
  induction ds with
  | nil => exact nil
  | cons d ds ih =>
    obtain ⟨first, others⟩ := List.forall_mem_cons.mp each
    obtain ⟨inner_first, inner_others⟩ := List.forall_mem_cons.mp inner
    have rest := ih order.tail others inner_others
    cases first with
    | var var_name var_type => exact var _ _ ds var_name var_type rest
    | procedure procedure_name order' each' body_fits =>
      exact procedure _ _ _ ds procedure_name order' body_fits order.procedures
        (inner_first _ _ _ rfl) rest

/-- Induction over the declarations in front of a body: those inside a procedure and those behind
it are rows as well. -/
@[elab_as_elim]
theorem Declaration.rowInduction (order : VarsFirst ds) (each : ∀ d ∈ ds, d.Fits real) :
    motive ds := by
  refine rowInduction_of nil var procedure order each fun d hd => ?_
  have hfits := each d hd
  clear hd
  induction hfits with
  | var var_name var_type => exact fun _ _ _ h => by cases h
  | procedure procedure_name order' each' body_fits ih =>
    intro name ds' body heq
    obtain ⟨rfl, rfl, rfl⟩ := Declaration.procedure.inj heq
    exact rowInduction_of nil var procedure order' each' ih

end Row

structure Program.Fits (real : Binary64 → Prop) (p : Program) : Prop where
  program_name : IsName p.name
  order : VarsFirst p.declarations
  each : ∀ d ∈ p.declarations, d.Fits real
  body_fits : (Statement.compound p.body).Fits real

namespace Binary64

def Finite (x : Binary64) : Prop := x.isFinite = true

/-- Finite, and without a sign. -/
def Literal (x : Binary64) : Prop := x.isFinite = true ∧ x.negative = false

private theorem finite_of_same {x y : Binary64} (h : x.same y = true) (hx : x.Literal) :
    y.Finite := by
  simp only [same, isZero, Bool.and_eq_true, Bool.or_eq_true, decide_eq_true_eq] at h
  rcases h.2 with rfl | ⟨-, hy⟩
  · exact hx.1
  · simp only [Finite, isFinite, hy]
    decide

end Binary64

/-- The trees that are printed and read back as they are. -/
def Program.WellFormed (p : Program) : Prop := p.Fits Binary64.Literal

section Same

variable {real real' : Binary64 → Prop}

theorem Statement.sameAll_iff {ss ss' : List Statement} :
    sameAll ss ss' = true ↔ List.Forall₂ (fun s s' => s.same s' = true) ss ss' := by
  induction ss generalizing ss' with
  | nil => cases ss' <;> simp [sameAll]
  | cons s ss ih => cases ss' <;> simp [sameAll, ih]

private theorem Declaration.sameAll_iff {ds ds' : List Declaration} :
    sameAll ds ds' = true ↔ List.Forall₂ (fun d d' => d.same d' = true) ds ds' := by
  induction ds generalizing ds' with
  | nil => cases ds' <;> simp [sameAll]
  | cons d ds ih => cases ds' <;> simp [sameAll, ih]

theorem forall_mem_of_forall₂ {α β : Type} {R : α → β → Prop} {P : β → Prop} {xs : List α}
    {ys : List β} (h : List.Forall₂ R xs ys) (hP : ∀ x ∈ xs, ∀ y, R x y → P y) : ∀ y ∈ ys, P y := by
  induction h with
  | nil => exact List.forall_mem_nil _
  | cons hxy _ ih =>
    obtain ⟨hx, hxs⟩ := List.forall_mem_cons.mp hP
    exact List.forall_mem_cons.mpr ⟨hx _ hxy, ih hxs⟩

private theorem Expr.Fits.of_same (hreal : ∀ x y, Binary64.same x y = true → real x → real' y)
    {e e' : Expr} (h : e.Fits real) (hsame : e.same e' = true) : e'.Fits real' := by
  induction e generalizing e' with
  | integer n =>
    cases e' <;> simp only [Expr.same, Bool.false_eq_true, decide_eq_true_eq] at hsame
    subst hsame
    exact h
  | real x =>
    cases e' <;> simp only [Expr.same, Bool.false_eq_true] at hsame
    exact hreal _ _ hsame h
  | var name =>
    cases e' <;> simp only [Expr.same, Bool.false_eq_true, decide_eq_true_eq] at hsame
    subst hsame
    exact h
  | binary l op r ihl ihr =>
    cases e' <;> simp only [Expr.same, Bool.false_eq_true, Bool.and_eq_true] at hsame
    exact ⟨ihl h.1 hsame.1.1, ihr h.2 hsame.2⟩
  | unary op e ih =>
    cases e' <;> simp only [Expr.same, Bool.false_eq_true, Bool.and_eq_true] at hsame
    have hfits := ih h hsame.2
    exact hfits

private theorem Statement.Fits.of_same (hreal : ∀ x y, Binary64.same x y = true → real x → real' y)
    {s s' : Statement} (h : s.Fits real) (hsame : s.same s' = true) : s'.Fits real' := by
  induction h generalizing s' with
  | compound some_statement each ih =>
    cases s' <;> simp only [Statement.same, Bool.false_eq_true] at hsame
    have hall := sameAll_iff.mp hsame
    refine .compound ?_ (forall_mem_of_forall₂ hall fun s hs s' hs' => ih s hs hs')
    rintro rfl
    exact some_statement (List.forall₂_nil_right_iff.mp hall)
  | assign target_name value_fits =>
    cases s' <;> simp only [Statement.same, Bool.false_eq_true, Bool.and_eq_true,
      decide_eq_true_eq] at hsame
    obtain ⟨rfl, hvalue⟩ := hsame
    exact .assign target_name (value_fits.of_same hreal hvalue)
  | skip =>
    cases s' <;> simp only [Statement.same, Bool.false_eq_true] at hsame
    exact .skip

private theorem VarsFirst.of_sameAll {ds ds' : List Declaration} (h : VarsFirst ds)
    (hsame : Declaration.sameAll ds ds' = true) : VarsFirst ds' := by
  have hvars {d d' : Declaration} (hd : d.same d' = true) : d.isVar = d'.isVar := by
    cases d <;> cases d' <;> first | rfl | simp [Declaration.same] at hd
  have hmap : ds.map Declaration.isVar = ds'.map Declaration.isVar := by
    clear h
    induction Declaration.sameAll_iff.mp hsame with
    | nil => rfl
    | cons hd hds ih =>
      rw [List.map_cons, List.map_cons, hvars hd, ih (Declaration.sameAll_iff.mpr hds)]
  have hpairs : (ds.map Declaration.isVar).Pairwise fun a b => b = true → a = true :=
    List.pairwise_map.mpr h
  rw [hmap] at hpairs
  exact List.pairwise_map.mp hpairs

private theorem Declaration.Fits.of_same
    (hreal : ∀ x y, Binary64.same x y = true → real x → real' y)
    {d d' : Declaration} (h : d.Fits real) (hsame : d.same d' = true) : d'.Fits real' := by
  induction h generalizing d' with
  | var var_name var_type =>
    cases d' <;> simp only [Declaration.same, Bool.false_eq_true, Bool.and_eq_true,
      decide_eq_true_eq] at hsame
    obtain ⟨rfl, rfl⟩ := hsame
    exact .var var_name var_type
  | procedure procedure_name order each body_fits ih =>
    cases d' <;> simp only [Declaration.same, Bool.false_eq_true, Bool.and_eq_true,
      decide_eq_true_eq] at hsame
    obtain ⟨⟨rfl, hds⟩, hbody⟩ := hsame
    refine .procedure procedure_name (order.of_sameAll hds) ?_
      (body_fits.of_same hreal hbody)
    exact forall_mem_of_forall₂ (sameAll_iff.mp hds) fun d hd d' hd' => ih d hd hd'

private theorem Program.Fits.of_same (hreal : ∀ x y, Binary64.same x y = true → real x → real' y)
    {p p' : Program} (h : p.Fits real) (hsame : p.same p' = true) : p'.Fits real' := by
  simp only [Program.same, Bool.and_eq_true, decide_eq_true_eq] at hsame
  obtain ⟨⟨hname, hds⟩, hbody⟩ := hsame
  constructor
  · rw [← hname]
    exact h.program_name
  · exact h.order.of_sameAll hds
  · exact forall_mem_of_forall₂ (Declaration.sameAll_iff.mp hds)
      fun d hd d' hd' => (h.each d hd).of_same hreal hd'
  · exact h.body_fits.of_same hreal hbody

private theorem Expr.Fits.same_self {e : Expr} (h : e.Fits Binary64.Literal) : e.same e = true := by
  induction e with
  | integer n => exact decide_eq_true rfl
  | real x => exact Binary64.same_self h.1
  | var name => exact decide_eq_true rfl
  | binary l op r ihl ihr => simp [Expr.same, ihl h.1, ihr h.2]
  | unary op e ih => simp [Expr.same, ih h]

private theorem Statement.Fits.same_self {s : Statement} (h : s.Fits Binary64.Literal) :
    s.same s = true := by
  induction h with
  | compound some_statement each ih =>
    rw [Statement.same, sameAll_iff, List.forall₂_same]
    exact ih
  | assign target_name value_fits => simp [Statement.same, value_fits.same_self]
  | skip => rfl

private theorem Declaration.Fits.same_self {d : Declaration} (h : d.Fits Binary64.Literal) :
    d.same d = true := by
  induction h with
  | var var_name var_type => simp [Declaration.same]
  | procedure procedure_name order each body_fits ih =>
    have hbody := body_fits.same_self
    have hds := sameAll_iff.mpr (List.forall₂_same.mpr ih)
    rw [Statement.same] at hbody
    simp [Declaration.same, hbody, hds]

theorem Program.WellFormed.same_self {p : Program} (h : p.WellFormed) : p.same p = true := by
  have hbody := h.body_fits.same_self
  have hds := Declaration.sameAll_iff.mpr
    (List.forall₂_same.mpr fun d hd => (h.each d hd).same_self)
  rw [Statement.same] at hbody
  simp [Program.same, hbody, hds]

theorem Program.WellFormed.fits_finite {p p' : Program} (h : p.WellFormed)
    (hsame : p.same p' = true) : p'.Fits Binary64.Finite :=
  Program.Fits.of_same (fun _ _ => Binary64.finite_of_same) h hsame

end Same

end MiniPascal
