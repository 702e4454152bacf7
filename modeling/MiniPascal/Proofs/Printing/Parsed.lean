import MiniPascal.Proofs.Grammar.Recognition
import MiniPascal.Proofs.Printing.WellFormed

/-!
Trees that were read are well formed. The tokens of a text are such that their names are no reserved
words and their numbers have no sign, and a derivation puts them in the right places.
-/

set_option autoImplicit false
set_option relaxedAutoImplicit false

namespace MiniPascal

/-- A token of this kind may stand in a well-formed tree. -/
def TokenKind.Proper : TokenKind → Prop
  | .identifier name => IsName name
  | .integer n => 0 ≤ n.toInt
  | .real x => x.Literal
  | _ => True

private theorem Spells.proper {lexeme : List Char} {kind : TokenKind} (h : Spells lexeme kind) :
    kind.Proper := by
  cases h with
  | mark m => trivial
  | reserved w => trivial
  | identifier word free =>
    refine ⟨?_, ?_⟩
    · rw [String.toList_ofList]
      exact word
    · intro w hw
      apply free w
      rw [hw, String.toList_ofList]
  | integer some_digit all_digits value =>
    change 0 ≤ Int64.toInt _
    omega
  | real some_digit all_digits finite => exact ⟨finite, rfl⟩

private theorem Tokenised.proper {p : Position} {text : List Char} {ts : List Token}
    (h : Tokenised p text (.ok ts)) : ∀ t ∈ ts, t.kind.Proper := by
  generalize hresult : (Except.ok ts : Except LexError (List Token)) = result at h
  induction h generalizing ts with
  | finish trivia =>
    obtain rfl := Except.ok.inj hresult
    exact List.forall_mem_singleton.mpr trivial
  | @token p gap lexeme rest kind result trivia longest others ih =>
    cases result with
    | error e => cases hresult
    | ok us =>
      obtain rfl := Except.ok.inj hresult
      exact List.forall_mem_cons.mpr ⟨longest.1.1.proper, ih rfl⟩
  | unclosedComment trivia open_ended => cases hresult
  | strayCharacter trivia settled no_offer no_digit => cases hresult
  | numberOutOfRange trivia no_offer digit run => cases hresult

namespace Derivation

private theorem Derives.proper {r : Rule} {d : Derivation r} {source : String}
    (h : d.Derives source) : ∀ k ∈ d.yield, k.Proper := by
  obtain ⟨ts, hts, hkinds⟩ := h
  obtain ⟨result, htokenised⟩ := Tokenised.exists_result .start source.toList
  have hresult : result = .ok ts := by
    rw [← htokenised.all_eq]
    exact hts
  rw [hresult] at htokenised
  intro k hk
  have hmem : k ∈ ts.map Token.kind := by
    rw [hkinds]
    exact List.mem_append_left _ hk
  obtain ⟨t, ht, rfl⟩ := List.mem_map.mp hmem
  exact htokenised.proper t ht

end Derivation

/-- What a rule makes of proper tokens. -/
def Rule.WellFormed : (r : Rule) → r.Tree → Prop
  | .program, p => p.WellFormed
  | .block, (ds, body) => (VarsFirst ds ∧ ∀ d ∈ ds, d.Fits Binary64.Literal) ∧
      (Statement.compound body).Fits Binary64.Literal
  | .declarations, ds => VarsFirst ds ∧ ∀ d ∈ ds, d.Fits Binary64.Literal
  | .varDeclaration, ds => ∀ d ∈ ds, d.isVar = true ∧ d.Fits Binary64.Literal
  | .procedureDeclaration, d => d.isVar = false ∧ d.Fits Binary64.Literal
  | .typeSpec, type => IsType type
  | .compoundStatement, body => (Statement.compound body).Fits Binary64.Literal
  | .statementList, body => (Statement.compound body).Fits Binary64.Literal
  | .statement, s => s.Fits Binary64.Literal
  | .assignmentStatement, s => s.Fits Binary64.Literal
  | .expr, e => e.Fits Binary64.Literal
  | .term, e => e.Fits Binary64.Literal
  | .factor, e => e.Fits Binary64.Literal

section Chain

variable {real : Binary64 → Prop}

private theorem Expr.fits_foldl {first : Expr} {others : List (BinaryOp × Expr)}
    (hfirst : first.Fits real) (hothers : ∀ o ∈ others, o.2.Fits real) :
    (others.foldl (fun left other => .binary left other.1 other.2) first).Fits real := by
  induction others generalizing first with
  | nil => exact hfirst
  | cons o others ih =>
    obtain ⟨ho, hrest⟩ := List.forall_mem_cons.mp hothers
    have hbinary : (Expr.binary first o.1 o.2).Fits real := ⟨hfirst, ho⟩
    exact ih hbinary hrest

private theorem VarsFirst.append {vars procedures : List Declaration}
    (hvars : ∀ d ∈ vars, d.isVar = true)
    (hprocedures : ∀ d ∈ procedures, d.isVar = false) : VarsFirst (vars ++ procedures) := by
  refine List.pairwise_append.mpr ⟨?_, ?_, ?_⟩
  · exact List.pairwise_of_forall_mem_list fun d hd _ _ _ => hvars d hd
  · refine List.pairwise_of_forall_mem_list fun d _ d' hd' h => ?_
    exact absurd (h.symm.trans (hprocedures d' hd')) (by decide)
  · exact fun d hd _ _ _ => hvars d hd

end Chain

private theorem Derivation.wellFormed_tree {r : Rule} {d : Derivation r}
    (h : ∀ k ∈ d.yield, k.Proper) : r.WellFormed d.tree := by
  induction d with
  | program name body ih =>
    rw [yield] at h
    simp only [List.forall_mem_cons, List.forall_mem_append] at h
    obtain ⟨-, hname, -, hbody, -⟩ := h
    have hblock := ih hbody
    rw [tree]
    exact ⟨hname, hblock.1.1, hblock.1.2, hblock.2⟩
  | block ds body ihds ihbody =>
    rw [yield, List.forall_mem_append] at h
    rw [tree]
    exact ⟨ihds h.1, ihbody h.2⟩
  | declarations groups procedures ihfirst ihothers ihprocedures =>
    rw [yield] at h
    simp only [List.forall_mem_append, List.forall_mem_flatMap, List.forall_mem_cons] at h
    obtain ⟨hgroups, hprocedures⟩ := h
    have hvars : ∀ d ∈ groups.flatMap fun g => g.1.tree ++ g.2.flatMap fun d => d.tree,
        d.isVar = true ∧ d.Fits Binary64.Literal := by
      simp only [List.forall_mem_append, List.forall_mem_flatMap]
      intro g hg
      obtain ⟨-, ⟨hfirst, -⟩, hothers⟩ := hgroups g hg
      exact ⟨ihfirst g hg hfirst, fun d hd => ihothers g hg d hd (hothers d hd).1⟩
    have hrows : ∀ d ∈ procedures.map fun p => p.tree,
        d.isVar = false ∧ d.Fits Binary64.Literal := by
      simp only [List.forall_mem_map]
      exact fun p hp => ihprocedures p hp (hprocedures p hp)
    rw [tree]
    refine ⟨.append (fun d hd => (hvars d hd).1) (fun d hd => (hrows d hd).1), ?_⟩
    exact List.forall_mem_append.mpr ⟨fun d hd => (hvars d hd).2, fun d hd => (hrows d hd).2⟩
  | varDeclaration first others type ih =>
    rw [yield] at h
    simp only [List.forall_mem_cons, List.forall_mem_append, List.forall_mem_flatMap] at h
    obtain ⟨hfirst, ⟨hothers, -⟩, htype⟩ := h
    have hnames : ∀ name ∈ first :: others, IsName name :=
      List.forall_mem_cons.mpr ⟨hfirst, fun name hname => (hothers name hname).2.1⟩
    rw [tree]
    refine List.forall_mem_map.mpr fun name hname => ⟨rfl, .var (hnames name hname) (ih htype)⟩
  | procedureDeclaration name body ih =>
    rw [yield] at h
    simp only [List.forall_mem_cons, List.forall_mem_append] at h
    obtain ⟨-, hname, -, hbody, -⟩ := h
    have hblock := ih hbody
    rw [tree]
    exact ⟨rfl, .procedure hname hblock.1.1 hblock.1.2 hblock.2⟩
  | integerType =>
    rw [tree]
    exact .inl rfl
  | realType =>
    rw [tree]
    exact .inr rfl
  | compoundStatement body ih =>
    rw [yield, List.forall_mem_cons, List.forall_mem_append] at h
    rw [tree]
    exact ih h.2.1
  | statementList first others ihfirst ihothers =>
    rw [yield] at h
    simp only [List.forall_mem_append, List.forall_mem_flatMap, List.forall_mem_cons] at h
    obtain ⟨hfirst, hothers⟩ := h
    rw [tree]
    refine .compound (List.cons_ne_nil _ _) (List.forall_mem_cons.mpr ⟨ihfirst hfirst, ?_⟩)
    exact List.forall_mem_map.mpr fun s hs => ihothers s hs (hothers s hs).2
  | compound body ih =>
    rw [yield] at h
    rw [tree]
    exact ih h
  | assignment body ih =>
    rw [yield] at h
    rw [tree]
    exact ih h
  | empty =>
    rw [tree]
    exact .skip
  | assignmentStatement target value ih =>
    rw [yield, List.forall_mem_cons, List.forall_mem_cons] at h
    rw [tree]
    exact .assign h.1 (ih h.2.2)
  | expr first others ihfirst ihothers =>
    rw [yield] at h
    simp only [List.forall_mem_append, List.forall_mem_flatMap, List.forall_mem_cons] at h
    rw [tree]
    refine Expr.fits_foldl (ihfirst h.1) (List.forall_mem_map.mpr fun o ho => ?_)
    exact ihothers o ho (h.2 o ho).2
  | term first others ihfirst ihothers =>
    rw [yield] at h
    simp only [List.forall_mem_append, List.forall_mem_flatMap, List.forall_mem_cons] at h
    rw [tree]
    refine Expr.fits_foldl (ihfirst h.1) (List.forall_mem_map.mpr fun o ho => ?_)
    exact ihothers o ho (h.2 o ho).2
  | signed op operand ih =>
    rw [yield, List.forall_mem_cons] at h
    rw [tree]
    exact ih h.2
  | integer n =>
    rw [yield] at h
    rw [tree]
    have hproper := h _ List.mem_cons_self
    exact hproper
  | real x =>
    rw [yield] at h
    rw [tree]
    have hproper := h _ List.mem_cons_self
    exact hproper
  | parens body ih =>
    rw [yield, List.forall_mem_cons, List.forall_mem_append] at h
    rw [tree]
    exact ih h.2.1
  | var name =>
    rw [yield] at h
    rw [tree]
    have hproper := h _ List.mem_cons_self
    exact hproper

theorem Program.wellFormed_of_ofString {source : String} {p : Program}
    (h : Program.ofString source = .ok p) : p.WellFormed := by
  obtain ⟨d, -, rfl, hderives⟩ := Program.ofString_eq_ok_iff.mp h
  exact Derivation.wellFormed_tree hderives.proper

theorem Expr.wellFormed_of_ofString {source : String} {e : Expr}
    (h : Expr.ofString source = .ok e) : e.Fits Binary64.Literal := by
  obtain ⟨d, -, rfl, hderives⟩ := Expr.ofString_eq_ok_iff.mp h
  exact Derivation.wellFormed_tree hderives.proper

end MiniPascal
