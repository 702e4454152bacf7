import MiniPascal.Proofs.Grammar.Derivation
import MiniPascal.Proofs.Grammar.Reading

/-!
Reading expressions is deriving them: what is read is derived, and what is derived is read up to a
token that does not go on.
-/

set_option autoImplicit false
set_option relaxedAutoImplicit false

namespace MiniPascal

def TokenKind.operates (k : TokenKind) : Bool :=
  (Parse.sumOp? k).isSome || (Parse.productOp? k).isSome

def TokenKind.states (k : TokenKind) : Bool :=
  k = .reserved .blockBegin || (Parse.name? k).isSome || k.operates

/-- The tokens that would be read as more of what a rule has derived. -/
def Rule.goesOn : Rule → TokenKind → Bool
  | .declarations, k => k = .reserved .var || k = .reserved .procedure || (Parse.name? k).isSome
  | .statementList, k => k.states || k = .mark .semicolon
  | .statement, k => k.states
  | .assignmentStatement, k | .expr, k => k.operates
  | .term, k => (Parse.productOp? k).isSome
  | _, _ => false

/-- The derivations by a rule with the root at a depth and no bounded rule too deep. -/
abbrev Rule.phrase (r : Rule) (depth : Nat) : Phrase (Derivation r) r.Tree where
  fits := Derivation.Within depth
  yield := Derivation.yield
  tree := Derivation.tree

abbrev Rule.ReadBy (r : Rule) (p : Parse r.Tree) (depth : Nat) : Prop :=
  (r.phrase depth).ReadBy p r.goesOn

theorem Rule.readBy_of {r : Rule} {p : Parse r.Tree} {depth : Nat}
    (sound : ∀ feed a rest, p.run feed = .ok a rest →
      ∃ d : Derivation r, d.Within depth ∧ d.tree = a ∧ feed.Reads d.yield rest)
    (complete : ∀ d : Derivation r, d.Within depth → ∀ feed rest, feed.Reads d.yield rest →
      rest.Stops r.goesOn → p.run feed = .ok d.tree rest) :
    r.ReadBy p depth :=
  ⟨sound, complete⟩

theorem SumOp.token_ne_endOfInput (o : SumOp) : o.token ≠ .endOfInput := by
  cases o <;> simp [token]

theorem ProductOp.token_ne_endOfInput (o : ProductOp) : o.token ≠ .endOfInput := by
  cases o <;> simp [token]

theorem UnaryOp.token_ne_endOfInput (op : UnaryOp) : op.token ≠ .endOfInput := by
  cases op <;> simp [token]

namespace Parse

theorem sumOp?_eq_some_iff {k : TokenKind} {b : BinaryOp} :
    sumOp? k = some b ↔ ∃ o : SumOp, o.token = k ∧ o.op = b := by
  constructor
  · intro h
    unfold sumOp? at h
    split at h
    · cases h
      exact ⟨.plus, rfl, rfl⟩
    · cases h
      exact ⟨.minus, rfl, rfl⟩
    · cases h
  · rintro ⟨o, rfl, rfl⟩
    cases o <;> rfl

theorem productOp?_eq_some_iff {k : TokenKind} {b : BinaryOp} :
    productOp? k = some b ↔ ∃ o : ProductOp, o.token = k ∧ o.op = b := by
  constructor
  · intro h
    unfold productOp? at h
    split at h
    · cases h
      exact ⟨.star, rfl, rfl⟩
    · cases h
      exact ⟨.slash, rfl, rfl⟩
    · cases h
      exact ⟨.div, rfl, rfl⟩
    · cases h
  · rintro ⟨o, rfl, rfl⟩
    cases o <;> rfl

theorem sign?_eq_some_iff {k : TokenKind} {op : UnaryOp} : sign? k = some op ↔ k = op.token := by
  constructor
  · intro h
    unfold sign? at h
    split at h <;> cases h <;> rfl
  · rintro rfl
    cases op <;> rfl

abbrev chained {Op D : Type} (f : Phrase D Expr) (token : Op → TokenKind) (op : Op → BinaryOp) :
    Phrase (D × List (Op × D)) Expr where
  fits c := f.fits c.1 ∧ ∀ o ∈ c.2, f.fits o.2
  yield c := f.yield c.1 ++ c.2.flatMap fun o => token o.1 :: f.yield o.2
  tree c := (c.2.map fun o => (op o.1, f.tree o.2)).foldl
    (fun left other => .binary left other.1 other.2) (f.tree c.1)

private theorem chain_readBy {Op D : Type} {op? : TokenKind → Option BinaryOp}
    {operand : Parse Expr}
    {token : Op → TokenKind} {op : Op → BinaryOp} {f : Phrase D Expr} {goesOn : TokenKind → Bool}
    (hop : ∀ k b, op? k = some b ↔ ∃ o, token o = k ∧ op o = b)
    (htoken : ∀ o, token o ≠ .endOfInput) (hgoes : ∀ o, goesOn (token o) = false)
    (h : f.ReadBy operand goesOn) :
    (chained f token op).ReadBy (chain op? operand) fun k => goesOn k || (op? k).isSome := by
  let items : Phrase (Op × D) (BinaryOp × Expr) :=
    ⟨fun o => f.fits o.2, fun o => token o.1 :: f.yield o.2, fun o => (op o.1, f.tree o.2)⟩
  have hitems : items.row.ReadBy (many op? fun b => do
      let right ← operand
      return (b, right)) fun k => goesOn k || (op? k).isSome := by
    apply Phrase.many_readBy goesOn
    · intro k b hb
      obtain ⟨o, rfl, rfl⟩ := (hop k b).mp hb
      refine ⟨htoken o, ?_⟩
      intro feed c rest hc
      simp only [run_bind_eq_ok, run_pure_eq_ok] at hc
      obtain ⟨right, mid, hright, rfl, rfl⟩ := hc
      obtain ⟨d, hd, rfl, hreads⟩ := h.sound _ _ _ hright
      exact ⟨(o, d), f.yield d, hd, rfl, rfl, hreads⟩
    · rintro ⟨o, d⟩ hd
      refine ⟨token o, op o, f.yield d, rfl, (hop _ _).mpr ⟨o, rfl, rfl⟩, hgoes o, ?_⟩
      intro feed rest hreads hstop
      simp only [run_bind_eq_ok, run_pure_eq_ok]
      exact ⟨_, rest, h.complete d hd feed rest hreads hstop, rfl, rfl⟩
  constructor
  · intro feed e rest hrun
    simp only [chain, run_bind_eq_ok, run_pure_eq_ok] at hrun
    obtain ⟨first, mid, hfirst, others, mid', hothers, rfl, rfl⟩ := hrun
    obtain ⟨d, hd, rfl, hreads⟩ := h.sound _ _ _ hfirst
    obtain ⟨os, hos, rfl, hreads'⟩ := hitems.sound _ _ _ hothers
    exact ⟨(d, os), ⟨hd, hos⟩, rfl, Feed.reads_append.mpr ⟨mid, hreads, hreads'⟩⟩
  · rintro ⟨first, others⟩ ⟨hfirst, hothers⟩ feed rest hreads hstop
    obtain ⟨mid, hreads, hreads'⟩ := Feed.reads_append.mp hreads
    have hmid : mid.Stops goesOn := by
      cases others with
      | nil =>
        obtain rfl : rest = mid := Feed.reads_nil.mp hreads'
        exact hstop.mono fun k hk => (Bool.or_eq_false_iff.mp hk).1
      | cons o os =>
        rw [List.flatMap_cons, List.cons_append] at hreads'
        exact hreads'.stops (hgoes o.1)
    have hrun := h.complete first hfirst feed mid hreads hmid
    have hmany := hitems.complete others hothers mid rest hreads' hstop
    simp only [chain, run_bind_eq_ok, run_pure_eq_ok]
    exact ⟨_, mid, hrun, _, rest, hmany, rfl, rfl⟩

private theorem term_readBy {p : Parse Expr} {n : Nat} (h : Rule.factor.ReadBy p (n + 1)) :
    Rule.term.ReadBy (chain productOp? p) n := by
  have hchain := chain_readBy (fun _ _ => productOp?_eq_some_iff)
    ProductOp.token_ne_endOfInput
    (fun _ => rfl) h
  apply Rule.readBy_of
  · intro feed e rest hrun
    obtain ⟨⟨first, others⟩, fits, rfl, hreads⟩ := hchain.sound _ _ _ hrun
    exact ⟨.term first others, Derivation.within_term.mpr fits, by rw [Derivation.tree],
      by rwa [Derivation.yield]⟩
  · intro d fits feed rest hreads hstop
    cases d with
    | term first others =>
      rw [Derivation.yield] at hreads
      rw [Derivation.tree]
      exact hchain.complete (first, others) (Derivation.within_term.mp fits) _ _ hreads
        (hstop.mono fun k hk => hk)

private theorem sumOf_readBy {p : Parse Expr} {n : Nat} (h : Rule.factor.ReadBy p (n + 2)) :
    Rule.expr.ReadBy (sumOf p) n := by
  have hchain := chain_readBy (fun _ _ => sumOp?_eq_some_iff)
    SumOp.token_ne_endOfInput
    (fun o => by cases o <;> rfl) (term_readBy h)
  apply Rule.readBy_of
  · intro feed e rest hrun
    obtain ⟨⟨first, others⟩, fits, rfl, hreads⟩ := hchain.sound _ _ _ hrun
    exact ⟨.expr first others, Derivation.within_expr.mpr fits, by rw [Derivation.tree],
      by rwa [Derivation.yield]⟩
  · intro d fits feed rest hreads hstop
    cases d with
    | expr first others =>
      rw [Derivation.yield] at hreads
      rw [Derivation.tree]
      refine hchain.complete (first, others) (Derivation.within_expr.mp fits) _ _ hreads
        (hstop.mono fun k hk => ?_)
      simpa [Rule.goesOn, TokenKind.operates, Bool.or_comm] using hk

private theorem exists_of_atom? {k : TokenKind} {e : Expr} {n : Nat} (hn : n ≤ Rule.limit)
    (h : atom? k = some e) :
    ∃ d : Derivation .factor, d.Within n ∧ d.tree = e ∧ d.yield = [k] := by
  unfold atom? at h
  split at h
  · cases h
    exact ⟨.integer _, by simpa using hn, by rw [Derivation.tree], by rw [Derivation.yield]⟩
  · cases h
    exact ⟨.real _, by simpa using hn, by rw [Derivation.tree], by rw [Derivation.yield]⟩
  · cases h
    exact ⟨.var _, by simpa using hn, by rw [Derivation.tree], by rw [Derivation.yield]⟩
  · cases h

theorem ne_endOfInput_of_atom? {k : TokenKind} {e : Expr} (h : atom? k = some e) :
    k ≠ .endOfInput := by
  rintro rfl
  cases h

section Factor

variable {rules : List Rule}

private theorem factor_sound (hn : rules.length ≤ Rule.limit)
    (hsigned : Rule.factor.ReadBy (factor (.factor :: rules)) (rules.length + 1))
    (hparens : Rule.expr.ReadBy (sumOf (factor (.factor :: .term :: .expr :: rules)))
      (rules.length + 1)) (feed : Feed) (e : Expr) (rest : Feed)
    (h : (factor rules).run feed = .ok e rest) :
    ∃ d : Derivation .factor, d.Within rules.length ∧ d.tree = e ∧ feed.Reads d.yield rest := by
  rw [factor, dif_pos hn, run_bind_eq_ok] at h
  obtain ⟨t, _, hcurrent, h⟩ := h
  obtain ⟨ht, rfl⟩ := run_current_eq_ok.mp hcurrent
  split at h
  · rename_i op hop
    rw [sign?_eq_some_iff] at hop
    simp only [run_bind_eq_ok, run_pure_eq_ok] at h
    obtain ⟨_, mid, hadvance, operand, _, hoperand, rfl, rfl⟩ := h
    have hopen := (run_advance_kind_eq_ok ht hop op.token_ne_endOfInput).mp hadvance
    obtain ⟨d, hd, rfl, hreads⟩ := hsigned.sound _ _ _ hoperand
    refine ⟨.signed op d, by simpa using ⟨hn, hd⟩, by rw [Derivation.tree], ?_⟩
    rw [Derivation.yield, Feed.reads_cons]
    exact ⟨mid, hopen, hreads⟩
  · split at h
    · rename_i e' he
      simp only [run_bind_eq_ok, run_pure_eq_ok] at h
      obtain ⟨_, _, hadvance, rfl, rfl⟩ := h
      obtain ⟨d, hd, rfl, hyield⟩ := exists_of_atom? hn he
      refine ⟨d, hd, rfl, ?_⟩
      rw [hyield]
      exact (run_advance_kind_eq_ok ht rfl (ne_endOfInput_of_atom? he)).mp hadvance
    · split at h
      · rename_i hopen
        simp only [run_bind_eq_ok, run_pure_eq_ok, run_expect_mark_eq_ok] at h
        obtain ⟨_, mid, hadvance, e', mid', he, _, _, hclose, rfl, rfl⟩ := h
        have hmid := (run_advance_kind_eq_ok ht hopen (by simp)).mp hadvance
        obtain ⟨d, hd, rfl, hreads⟩ := hparens.sound _ _ _ he
        refine ⟨.parens d, by simpa using ⟨hn, hd⟩, by rw [Derivation.tree], ?_⟩
        rw [Derivation.yield, Feed.reads_cons]
        exact ⟨mid, hmid, Feed.reads_append.mpr ⟨mid', hreads, hclose⟩⟩
      · exact absurd h run_refuse_ne_ok

private theorem factor_complete (hn : rules.length ≤ Rule.limit)
    (hsigned : Rule.factor.ReadBy (factor (.factor :: rules)) (rules.length + 1))
    (hparens : Rule.expr.ReadBy (sumOf (factor (.factor :: .term :: .expr :: rules)))
      (rules.length + 1)) (d : Derivation .factor) (hd : d.Within rules.length) (feed rest : Feed)
    (hreads : feed.Reads d.yield rest) (hstop : rest.Stops Rule.factor.goesOn) :
    (factor rules).run feed = .ok d.tree rest := by
  have run_atom {k : TokenKind} {e : Expr} (h : feed.Reads [k] rest) (hsign : sign? k = none)
      (hatom : atom? k = some e) : (factor rules).run feed = .ok e rest := by
    obtain ⟨t, ht, hk⟩ := h.front
    have hadvance := (run_advance_kind_eq_ok ht hk (ne_endOfInput_of_atom? hatom)).mpr h
    rw [factor, dif_pos hn, run_bind_eq_ok]
    refine ⟨t, feed, run_current_eq_ok.mpr ⟨ht, rfl⟩, ?_⟩
    rw [hk, hsign, hatom]
    exact run_bind_eq_ok.mpr ⟨(), rest, hadvance, rfl⟩
  cases d with
  | signed op operand =>
    rw [Derivation.yield, Feed.reads_cons] at hreads
    obtain ⟨mid, hopen, hoperand⟩ := hreads
    obtain ⟨t, ht, hk⟩ := hopen.front
    have hadvance := (run_advance_kind_eq_ok ht hk op.token_ne_endOfInput).mpr hopen
    rw [Derivation.within_signed] at hd
    have hrun := hsigned.complete operand hd.2 mid rest hoperand hstop
    rw [factor, dif_pos hn, run_bind_eq_ok, Derivation.tree]
    refine ⟨t, feed, run_current_eq_ok.mpr ⟨ht, rfl⟩, ?_⟩
    rw [sign?_eq_some_iff.mpr hk]
    simp only [run_bind_eq_ok, run_pure_eq_ok]
    exact ⟨(), mid, hadvance, _, rest, hrun, rfl, rfl⟩
  | integer n =>
    rw [Derivation.yield] at hreads
    rw [Derivation.tree]
    exact run_atom hreads rfl rfl
  | real x =>
    rw [Derivation.yield] at hreads
    rw [Derivation.tree]
    exact run_atom hreads rfl rfl
  | var name =>
    rw [Derivation.yield] at hreads
    rw [Derivation.tree]
    exact run_atom hreads rfl rfl
  | parens body =>
    rw [Derivation.yield, Feed.reads_cons] at hreads
    obtain ⟨mid, hopen, h⟩ := hreads
    obtain ⟨mid', hbody, hclose⟩ := Feed.reads_append.mp h
    obtain ⟨t, ht, hk⟩ := hopen.front
    have hadvance := (run_advance_kind_eq_ok ht hk (by simp)).mpr hopen
    have hstop' : mid'.Stops Rule.expr.goesOn := hclose.stops rfl
    rw [Derivation.within_parens] at hd
    have hrun := hparens.complete body hd.2 mid mid' hbody hstop'
    rw [factor, dif_pos hn, run_bind_eq_ok, Derivation.tree]
    refine ⟨t, feed, run_current_eq_ok.mpr ⟨ht, rfl⟩, ?_⟩
    simp only [hk, sign?, atom?, if_true, run_bind_eq_ok, run_pure_eq_ok, run_expect_mark_eq_ok]
    exact ⟨(), mid, hadvance, _, mid', hrun, (), rest, hclose, rfl, rfl⟩

private theorem factor_readBy (rules : List Rule) :
    Rule.factor.ReadBy (factor rules) rules.length := by
  induction rules using Rule.nestingInduction with
  | step rules ih =>
    by_cases hn : rules.length ≤ Rule.limit
    · have hsigned := ih hn (.factor :: rules) (by simp +arith)
      have hinner := ih hn (.factor :: .term :: .expr :: rules) (by simp +arith)
      exact ⟨factor_sound hn hsigned (sumOf_readBy hinner),
        factor_complete hn hsigned (sumOf_readBy hinner)⟩
    · apply Rule.readBy_of
      · intro feed e rest h
        rw [factor, dif_neg hn] at h
        exact absurd h run_refuse_ne_ok
      · intro d hd
        cases d <;> simp only [Derivation.within_signed, Derivation.within_integer,
          Derivation.within_real, Derivation.within_parens, Derivation.within_var] at hd <;> omega

theorem expr_readBy (rules : List Rule) : Rule.expr.ReadBy (expr rules) (rules.length + 1) :=
  sumOf_readBy (factor_readBy (.factor :: .term :: .expr :: rules))

end Factor

end Parse

end MiniPascal
