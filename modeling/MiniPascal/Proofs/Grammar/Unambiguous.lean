import MiniPascal.Proofs.Grammar.ExpressionReading

/-!
A row of tokens has at most one derivation. Where a derivation ends and which one it is can be told
from the tokens, as long as no token follows that goes on with it.
-/

set_option autoImplicit false
set_option relaxedAutoImplicit false

namespace MiniPascal

def Halts (goesOn : TokenKind → Bool) (ks : List TokenKind) : Prop :=
  ∀ k ∈ ks.head?, goesOn k = false

/-- An item can be told from the tokens that it and others begin with. -/
def Told {D : Type} (yield : D → List TokenKind) (goesOn : TokenKind → Bool) (d : D) : Prop :=
  ∀ d' ks ks', yield d ++ ks = yield d' ++ ks' → Halts goesOn ks → Halts goesOn ks' →
    d = d' ∧ ks = ks'

section Rows

variable {D : Type} {yield : D → List TokenKind} {goesOn opens : TokenKind → Bool}
  {k : TokenKind} {ks ks' : List TokenKind}

private theorem Halts.nil : Halts goesOn [] := by
  intro k hk
  cases hk

private theorem Halts.cons (h : goesOn k = false) : Halts goesOn (k :: ks) := by
  intro k' hk'
  obtain rfl : k = k' := by simpa using hk'
  exact h

private theorem Halts.mono {goesOn' : TokenKind → Bool} (h : Halts goesOn ks)
    (hle : ∀ k, goesOn k = false → goesOn' k = false) : Halts goesOn' ks := by
  intro k hk
  exact hle k (h k hk)

private theorem Halts.row (hopens : ∀ d, ∃ k ks, yield d = k :: ks ∧ goesOn k = false)
    (h : Halts goesOn ks) (ds : List D) : Halts goesOn (ds.flatMap yield ++ ks) := by
  cases ds with
  | nil => exact h
  | cons d ds =>
    obtain ⟨k, ks, hyield, hgoes⟩ := hopens d
    rw [List.flatMap_cons, hyield]
    exact Halts.cons hgoes

private theorem Told.mono {goesOn' : TokenKind → Bool} {d : D} (h : Told yield goesOn d)
    (hle : ∀ k, goesOn' k = false → goesOn k = false) : Told yield goesOn' d := by
  intro d' ks ks' heq hks hks'
  exact h d' ks ks' heq (hks.mono hle) (hks'.mono hle)

private theorem Told.closed {d : D} (h : Told yield goesOn d) (hk : goesOn k = false) :
    Told (fun d => yield d ++ [k]) (fun _ => false) d := by
  intro d' ks ks' heq _ _
  simp only [List.append_assoc] at heq
  obtain ⟨rfl, hrest⟩ := h d' _ _ heq (Halts.cons hk) (Halts.cons hk)
  exact ⟨rfl, (List.cons.inj hrest).2⟩

private theorem told_append {E : Type} {yield' : E → List TokenKind} {goesOn' : TokenKind → Bool}
    {d : D} {e : E} (hseam : ∀ e ks, Halts goesOn' ks → Halts goesOn (yield' e ++ ks))
    (hd : Told yield goesOn d) (he : Told yield' goesOn' e) :
    Told (fun p : D × E => yield p.1 ++ yield' p.2) goesOn' (d, e) := by
  rintro ⟨d', e'⟩ ks ks' heq hks hks'
  simp only [List.append_assoc] at heq
  obtain ⟨rfl, hrest⟩ := hd d' _ _ heq (hseam e ks hks) (hseam e' ks' hks')
  obtain ⟨rfl, rfl⟩ := he e' ks ks' hrest hks hks'
  exact ⟨rfl, rfl⟩

private theorem not_row_cons (hopens : ∀ d, ∃ k ks, yield d = k :: ks ∧ opens k = true)
    (h : Halts opens ks) {d : D} {ds : List D} : ks ≠ (d :: ds).flatMap yield ++ ks' := by
  rintro rfl
  obtain ⟨k, ks, hyield, hk⟩ := hopens d
  rw [List.flatMap_cons, hyield] at h
  exact absurd (h k rfl) (by simp [hk])

private theorem told_row (yield : D → List TokenKind) (goesOn opens : TokenKind → Bool)
    (hopens : ∀ d, ∃ k ks, yield d = k :: ks ∧ opens k = true ∧ goesOn k = false)
    (ds : List D) (h : ∀ d ∈ ds, Told yield goesOn d) :
    Told (List.flatMap yield) (fun k => goesOn k || opens k) ds := by
  have hopen : ∀ d, ∃ k ks, yield d = k :: ks ∧ opens k = true := by
    intro d
    obtain ⟨k, ks, hyield, hk, -⟩ := hopens d
    exact ⟨k, ks, hyield, hk⟩
  have hseam (ds : List D) (ks : List TokenKind) (hks : Halts (fun k => goesOn k || opens k) ks) :
      Halts goesOn (ds.flatMap yield ++ ks) := by
    refine Halts.row ?_ (hks.mono fun k hk => (Bool.or_eq_false_iff.mp hk).1) ds
    intro d
    obtain ⟨k, ks, hyield, -, hk⟩ := hopens d
    exact ⟨k, ks, hyield, hk⟩
  induction ds with
  | nil =>
    intro ds' ks ks' heq hks hks'
    cases ds' with
    | nil => exact ⟨rfl, heq⟩
    | cons d' ds' =>
      exact absurd heq (not_row_cons hopen (hks.mono fun k hk => (Bool.or_eq_false_iff.mp hk).2))
  | cons d ds ih =>
    obtain ⟨hd, hds⟩ := List.forall_mem_cons.mp h
    intro ds' ks ks' heq hks hks'
    cases ds' with
    | nil =>
      exact absurd heq.symm
        (not_row_cons hopen (hks'.mono fun k hk => (Bool.or_eq_false_iff.mp hk).2))
    | cons d' ds' =>
      rw [List.flatMap_cons, List.flatMap_cons, List.append_assoc, List.append_assoc] at heq
      obtain ⟨rfl, hrest⟩ := hd d' _ _ heq (hseam ds ks hks) (hseam ds' ks' hks')
      obtain ⟨rfl, rfl⟩ := ih hds ds' ks ks' hrest hks hks'
      exact ⟨rfl, rfl⟩

private theorem told_chain {Op : Type} {token : Op → TokenKind} (opens : TokenKind → Bool)
    (hinj : Function.Injective token)
    (htoken : ∀ o, opens (token o) = true ∧ goesOn (token o) = false) {first : D}
    {others : List (Op × D)} (hfirst : Told yield goesOn first)
    (hothers : ∀ o ∈ others, Told yield goesOn o.2) :
    Told (fun c : D × List (Op × D) => yield c.1 ++ c.2.flatMap fun o => token o.1 :: yield o.2)
      (fun k => goesOn k || opens k) (first, others) := by
  refine told_append ?_ hfirst (told_row _ _ opens (fun o => ⟨_, _, rfl, htoken o.1⟩) others ?_)
  · intro others ks hks
    exact Halts.row (fun o => ⟨_, _, rfl, (htoken o.1).2⟩)
      (hks.mono fun k hk => (Bool.or_eq_false_iff.mp hk).1) others
  · rintro ⟨op, d⟩ ho ⟨op', d'⟩ ks ks' heq hks hks'
    obtain ⟨hop, heq⟩ := List.cons.inj heq
    obtain rfl : op = op' := hinj hop
    obtain ⟨rfl, rfl⟩ := hothers _ ho d' ks ks' heq hks hks'
    exact ⟨rfl, rfl⟩

end Rows

namespace Derivation

open Parse (name? sumOp? productOp?)

private theorem token_injective_sum : Function.Injective SumOp.token := by
  intro o o' h
  cases o <;> cases o' <;> first | rfl | cases h

private theorem token_injective_product : Function.Injective ProductOp.token := by
  intro o o' h
  cases o <;> cases o' <;> first | rfl | cases h

private theorem told_varDeclaration (d : Derivation .varDeclaration) :
    Told yield (fun _ => false) d := by
  cases d with
  | varDeclaration first others type =>
    intro d' ks ks' heq _ _
    cases d' with
    | varDeclaration first' others' type' =>
      have hrow := told_row (fun name => [.mark .comma, .identifier name]) (fun _ => false)
        (· = .mark .comma) (fun name => ⟨_, _, rfl, by simp, rfl⟩) others (by
          intro name _ name' ks ks' heq _ _
          simpa using heq)
      simp only [yield, List.cons_append, List.append_assoc, List.cons.injEq,
        TokenKind.identifier.injEq] at heq
      obtain ⟨rfl, heq⟩ := heq
      obtain ⟨rfl, hrest⟩ := hrow others' _ _ heq (Halts.cons rfl) (Halts.cons rfl)
      cases type <;> cases type' <;> simp [yield] at hrest
      · exact ⟨rfl, hrest⟩
      · exact ⟨rfl, hrest⟩

private theorem told_group (g : Derivation .varDeclaration × List (Derivation .varDeclaration)) :
    Told (fun g => .reserved .var :: (g.1.yield ++ [.mark .semicolon] ++
      g.2.flatMap fun d => d.yield ++ [.mark .semicolon])) (fun k => (name? k).isSome) g := by
  have hclosed (d : Derivation .varDeclaration) :
      Told (fun d => d.yield ++ [.mark .semicolon]) (fun _ => false) d :=
    (told_varDeclaration d).closed rfl
  have hrow := told_row (fun d => d.yield ++ [.mark .semicolon]) (fun _ => false)
    (fun k => (name? k).isSome) (fun d => by
      cases d
      exact ⟨_, _, by rw [yield]; rfl, rfl, rfl⟩) g.2 (fun d _ => hclosed d)
  have hpair := told_append (fun _ _ _ _ _ => rfl) (hclosed g.1) hrow
  intro g' ks ks' heq hks hks'
  exact hpair g' ks ks' (List.cons.inj heq).2 hks hks'

private theorem head?_compound (body : Derivation .compoundStatement) (ks : List TokenKind) :
    (body.yield ++ ks).head? = some (.reserved .blockBegin) := by
  cases body
  rw [yield]
  rfl

private theorem head?_assignment (body : Derivation .assignmentStatement) (ks : List TokenKind) :
    ∃ name, (body.yield ++ ks).head? = some (.identifier name) := by
  cases body
  rw [yield]
  exact ⟨_, rfl⟩

private theorem told_statement (d : Derivation .statement)
    (hcompound : ∀ body, d = .compound body → Told yield (fun _ => false) body)
    (hassignment : ∀ body, d = .assignment body → Told yield TokenKind.operates body) :
    Told yield TokenKind.states d := by
  intro d' ks ks' heq hks hks'
  have hhead := congrArg List.head? heq
  cases d with
  | compound body =>
    cases d' with
    | compound body' =>
      simp only [yield] at heq
      obtain ⟨rfl, rfl⟩ := hcompound body rfl body' ks ks' heq (hks.mono fun _ _ => rfl)
        (hks'.mono fun _ _ => rfl)
      exact ⟨rfl, rfl⟩
    | assignment body' =>
      obtain ⟨name, hname⟩ := head?_assignment body' ks'
      simp only [yield, head?_compound, hname] at hhead
      cases hhead
    | empty =>
      simp only [yield, head?_compound, List.nil_append] at hhead
      exact absurd (hks' _ hhead.symm) (by decide)
  | assignment body =>
    obtain ⟨name, hname⟩ := head?_assignment body ks
    cases d' with
    | compound body' =>
      simp only [yield, head?_compound, hname] at hhead
      cases hhead
    | assignment body' =>
      simp only [yield] at heq
      obtain ⟨rfl, rfl⟩ := hassignment body rfl body' ks ks' heq
        (hks.mono fun _ hk => (Bool.or_eq_false_iff.mp hk).2)
        (hks'.mono fun _ hk => (Bool.or_eq_false_iff.mp hk).2)
      exact ⟨rfl, rfl⟩
    | empty =>
      simp only [yield, hname, List.nil_append] at hhead
      have hstates := hks' _ hhead.symm
      simp [TokenKind.states, name?] at hstates
  | empty =>
    cases d' with
    | compound body' =>
      simp only [yield, head?_compound, List.nil_append] at hhead
      exact absurd (hks _ hhead) (by decide)
    | assignment body' =>
      obtain ⟨name, hname⟩ := head?_assignment body' ks'
      simp only [yield, hname, List.nil_append] at hhead
      have hstates := hks _ hhead
      simp [TokenKind.states, name?] at hstates
    | empty =>
      simp only [yield, List.nil_append] at heq
      exact ⟨rfl, heq⟩

private theorem told_declarations
    (groups : List (Derivation .varDeclaration × List (Derivation .varDeclaration)))
    {procedures : List (Derivation .procedureDeclaration)}
    (ih : ∀ p ∈ procedures, Told yield Rule.procedureDeclaration.goesOn p) :
    Told yield Rule.declarations.goesOn (.declarations groups procedures) := by
  have hgroups := told_row _ _ (· = .reserved .var) (fun g => ⟨_, _, rfl, by simp, rfl⟩) groups
    (fun g _ => told_group g)
  have hprocedures := told_row yield _ (· = .reserved .procedure) (fun d => by
      cases d
      exact ⟨_, _, by rw [yield], by simp, rfl⟩) procedures ih
  have hpair := told_append (fun ps ks hks => by
      refine Halts.row (fun d => ?_) (hks.mono fun k hk => ?_) ps
      · cases d
        exact ⟨_, _, by rw [yield], rfl⟩
      · simp only [Rule.goesOn, Bool.or_eq_false_iff] at hk
        simp [hk.1.1, hk.2])
    hgroups (hprocedures.mono fun k (hk : Rule.declarations.goesOn k = false) => by
      simp only [Rule.goesOn, Bool.or_eq_false_iff] at hk
      exact hk.1.2)
  intro d' ks ks' heq hks hks'
  cases d' with
  | declarations groups' procedures' =>
    simp only [yield] at heq
    obtain ⟨h, rfl⟩ := hpair (groups', procedures') ks ks' heq hks hks'
    cases h
    exact ⟨rfl, rfl⟩

private theorem told_statementList {first : Derivation .statement}
    {others : List (Derivation .statement)} (ihfirst : Told yield Rule.statement.goesOn first)
    (ihothers : ∀ s ∈ others, Told yield Rule.statement.goesOn s) :
    Told yield Rule.statementList.goesOn (.statementList first others) := by
  have hopens (s : Derivation .statement) : ∃ k ks, .mark .semicolon :: s.yield = k :: ks ∧
      decide (k = .mark .semicolon) = true ∧ k.states = false :=
    ⟨_, _, rfl, by simp, rfl⟩
  have hrow := told_row _ TokenKind.states (· = .mark .semicolon) hopens others (by
    intro s hs s' ks ks' heq hks hks'
    exact ihothers s hs s' ks ks' (List.cons.inj heq).2 hks hks')
  have hpair := told_append (fun ss ks hks => by
      refine Halts.row (fun s => ?_) (hks.mono fun k hk => (Bool.or_eq_false_iff.mp hk).1) ss
      exact ⟨_, _, rfl, rfl⟩) ihfirst hrow
  intro d' ks ks' heq hks hks'
  cases d' with
  | statementList first' others' =>
    simp only [yield] at heq
    obtain ⟨h, rfl⟩ := hpair (first', others') ks ks' heq hks hks'
    cases h
    exact ⟨rfl, rfl⟩

private theorem ne_token (op : UnaryOp) : (∀ n, op.token ≠ .integer n) ∧ (∀ x, op.token ≠ .real x) ∧
    (∀ name, op.token ≠ .identifier name) ∧ op.token ≠ .mark .leftParen := by
  cases op <;> simp [UnaryOp.token]

private theorem token_injective_unary : Function.Injective UnaryOp.token := by
  intro o o' h
  cases o <;> cases o' <;> first | rfl | cases h

private theorem told_factor (d : Derivation .factor)
    (hsigned : ∀ op operand, d = .signed op operand → Told yield (fun _ => false) operand)
    (hparens : ∀ body, d = .parens body → Told yield TokenKind.operates body) :
    Told yield (fun _ => false) d := by
  intro d' ks ks' heq hks hks'
  cases d with
  | signed op operand =>
    obtain ⟨hinteger, hreal, hvar, hparen⟩ := ne_token op
    cases d' with
    | signed op' operand' =>
      simp only [yield, List.cons_append, List.cons.injEq] at heq
      obtain rfl : op = op' := token_injective_unary heq.1
      obtain ⟨rfl, rfl⟩ := hsigned op operand rfl operand' ks ks' heq.2 hks hks'
      exact ⟨rfl, rfl⟩
    | _ => simp [yield, hinteger, hreal, hvar, hparen] at heq
  | integer n =>
    cases d' with
    | signed op' operand' => simp [yield, ((ne_token op').1 _).symm] at heq
    | _ => simp_all [yield]
  | real x =>
    cases d' with
    | signed op' operand' => simp [yield, ((ne_token op').2.1 _).symm] at heq
    | _ => simp_all [yield]
  | parens body =>
    cases d' with
    | signed op' operand' => simp [yield, (ne_token op').2.2.2.symm] at heq
    | parens body' =>
      have hclosed := (hparens body rfl).closed (k := .mark .rightParen) rfl
      simp only [yield, List.cons_append, List.cons.injEq, true_and] at heq
      obtain ⟨rfl, rfl⟩ := hclosed body' ks ks' heq hks hks'
      exact ⟨rfl, rfl⟩
    | _ => simp [yield] at heq
  | var name =>
    cases d' with
    | signed op' operand' => simp [yield, ((ne_token op').2.2.1 _).symm] at heq
    | _ => simp_all [yield]

/-- Every derivation can be told from its tokens. -/
private theorem told {r : Rule} (d : Derivation r) : Told yield r.goesOn d := by
  induction d with
  | program name body ih =>
    have hbody := ih.closed (k := .mark .dot) rfl
    intro d' ks ks' heq hks hks'
    cases d' with
    | program name' body' =>
      simp only [yield, List.cons_append, List.cons.injEq, true_and,
        TokenKind.identifier.injEq] at heq
      obtain ⟨rfl, heq⟩ := heq
      obtain ⟨rfl, rfl⟩ := hbody body' ks ks' heq hks hks'
      exact ⟨rfl, rfl⟩
  | block ds body ihds ihbody =>
    have hpair := told_append (fun body ks _ k hk => by
        rw [head?_compound] at hk
        cases hk
        rfl) ihds ihbody
    intro d' ks ks' heq hks hks'
    cases d' with
    | block ds' body' =>
      simp only [yield] at heq
      obtain ⟨h, rfl⟩ := hpair (ds', body') ks ks' heq hks hks'
      cases h
      exact ⟨rfl, rfl⟩
  | declarations groups procedures _ _ ih => exact told_declarations groups ih
  | varDeclaration first others type _ => exact told_varDeclaration _
  | procedureDeclaration name body ih =>
    have hbody := ih.closed (k := .mark .semicolon) rfl
    intro d' ks ks' heq hks hks'
    cases d' with
    | procedureDeclaration name' body' =>
      simp only [yield, List.cons_append, List.cons.injEq, true_and,
        TokenKind.identifier.injEq] at heq
      obtain ⟨rfl, heq⟩ := heq
      obtain ⟨rfl, rfl⟩ := hbody body' ks ks' heq hks hks'
      exact ⟨rfl, rfl⟩
  | integerType =>
    intro d' ks ks' heq hks hks'
    cases d' <;> simp [yield] at heq
    exact ⟨rfl, heq⟩
  | realType =>
    intro d' ks ks' heq hks hks'
    cases d' <;> simp [yield] at heq
    exact ⟨rfl, heq⟩
  | compoundStatement body ih =>
    have hbody := ih.closed (k := .reserved .blockEnd) rfl
    intro d' ks ks' heq hks hks'
    cases d' with
    | compoundStatement body' =>
      simp only [yield, List.cons_append, List.cons.injEq, true_and] at heq
      obtain ⟨rfl, rfl⟩ := hbody body' ks ks' heq hks hks'
      exact ⟨rfl, rfl⟩
  | statementList first others ihfirst ihothers => exact told_statementList ihfirst ihothers
  | compound body ih =>
    exact told_statement _ (fun _ h => by cases h; exact ih) (fun _ h => by cases h)
  | assignment body ih =>
    exact told_statement _ (fun _ h => by cases h) (fun _ h => by cases h; exact ih)
  | empty => exact told_statement _ (fun _ h => by cases h) (fun _ h => by cases h)
  | assignmentStatement target value ih =>
    intro d' ks ks' heq hks hks'
    cases d' with
    | assignmentStatement target' value' =>
      simp only [yield, List.cons_append, List.cons.injEq, true_and,
        TokenKind.identifier.injEq] at heq
      obtain ⟨rfl, heq⟩ := heq
      obtain ⟨rfl, rfl⟩ := ih value' _ _ heq hks hks'
      exact ⟨rfl, rfl⟩
  | expr first others ihfirst ihothers =>
    have hchain := told_chain (fun k => (sumOp? k).isSome) token_injective_sum
      (fun o => by cases o <;> exact ⟨rfl, rfl⟩) ihfirst ihothers
    intro d' ks ks' heq hks hks'
    cases d' with
    | expr first' others' =>
      simp only [yield] at heq
      have hle : ∀ k, Rule.expr.goesOn k = false →
          ((productOp? k).isSome || (sumOp? k).isSome) = false := by
        intro k hk
        rw [Bool.or_comm]
        exact hk
      obtain ⟨h, rfl⟩ := hchain (first', others') ks ks' heq (hks.mono hle) (hks'.mono hle)
      cases h
      exact ⟨rfl, rfl⟩
  | term first others ihfirst ihothers =>
    have hchain := told_chain (fun k => (productOp? k).isSome) token_injective_product
      (fun o => by cases o <;> exact ⟨rfl, rfl⟩) ihfirst ihothers
    intro d' ks ks' heq hks hks'
    cases d' with
    | term first' others' =>
      simp only [yield] at heq
      obtain ⟨h, rfl⟩ := hchain (first', others') ks ks' heq hks hks'
      cases h
      exact ⟨rfl, rfl⟩
  | signed op operand ih =>
    exact told_factor _ (fun _ _ h => by cases h; exact ih) (fun _ h => by cases h)
  | integer n => exact told_factor _ (fun _ _ h => by cases h) (fun _ h => by cases h)
  | real x => exact told_factor _ (fun _ _ h => by cases h) (fun _ h => by cases h)
  | parens body ih =>
    exact told_factor _ (fun _ _ h => by cases h) (fun _ h => by cases h; exact ih)
  | var name => exact told_factor _ (fun _ _ h => by cases h) (fun _ h => by cases h)

/-- A row of tokens has at most one derivation by a rule. -/
theorem eq_of_yield_eq {r : Rule} {d d' : Derivation r} (h : d.yield = d'.yield) : d = d' := by
  have heq : d.yield ++ [] = d'.yield ++ [] := by rw [h]
  exact (told d d' [] [] heq Halts.nil Halts.nil).1

end Derivation

end MiniPascal
