import MiniPascal.Proofs.Grammar.ExpressionReading

/-!
Reading statements, declarations and programs is deriving them.
-/

set_option autoImplicit false
set_option relaxedAutoImplicit false

namespace MiniPascal.Parse

section Statements

variable {rules : List Rule}

private theorem assignment_readBy (rules : List Rule) :
    Rule.assignmentStatement.ReadBy (assignment rules) rules.length := by
  apply Rule.readBy_of
  · intro feed s rest h
    simp only [assignment, run_bind_eq_ok, run_identifier_eq_ok,
      run_expect_mark_eq_ok, run_pure_eq_ok] at h
    obtain ⟨target, mid, hname, _, mid', hassign, value, _, hvalue, rfl, rfl⟩ := h
    obtain ⟨d, hd, rfl, hreads⟩ := (expr_readBy rules).sound _ _ _ hvalue
    refine ⟨.assignmentStatement target d, by simpa using hd, by rw [Derivation.tree], ?_⟩
    rw [Derivation.yield, Feed.reads_cons]
    exact ⟨mid, hname, Feed.reads_cons.mpr ⟨mid', hassign, hreads⟩⟩
  · intro d hd feed rest hreads hstop
    cases d with
    | assignmentStatement target value =>
      rw [Derivation.yield, Feed.reads_cons] at hreads
      obtain ⟨mid, hname, h⟩ := hreads
      obtain ⟨mid', hassign, hvalue⟩ := Feed.reads_cons.mp h
      rw [Derivation.within_assignmentStatement] at hd
      have hrun := (expr_readBy rules).complete value hd mid' rest hvalue hstop
      simp only [assignment, run_bind_eq_ok, run_identifier_eq_ok,
        run_expect_mark_eq_ok, run_pure_eq_ok, Derivation.tree]
      exact ⟨target, mid, hname, (), mid', hassign, _, rest, hrun, rfl, rfl⟩

private theorem statement_readBy (rules : List Rule) {p : Parse (List Statement)}
    (h : Rule.compoundStatement.ReadBy p (rules.length + 1)) :
    Rule.statement.ReadBy (statement rules p) rules.length := by
  apply Rule.readBy_of
  · intro feed s rest hrun
    rw [statement, run_bind_eq_ok] at hrun
    obtain ⟨t, _, hcurrent, hrun⟩ := hrun
    obtain ⟨ht, rfl⟩ := run_current_eq_ok.mp hcurrent
    split at hrun
    · simp only [run_bind_eq_ok, run_pure_eq_ok] at hrun
      obtain ⟨body, _, hbody, rfl, rfl⟩ := hrun
      obtain ⟨d, hd, rfl, hreads⟩ := h.sound _ _ _ hbody
      exact ⟨.compound d, by simpa using hd, by rw [Derivation.tree], by rwa [Derivation.yield]⟩
    · obtain ⟨d, hd, rfl, hreads⟩ := (assignment_readBy _).sound _ _ _ hrun
      exact ⟨.assignment d, by simpa using hd, by rw [Derivation.tree], by rwa [Derivation.yield]⟩
    · simp only [run_pure_eq_ok] at hrun
      obtain ⟨rfl, rfl⟩ := hrun
      exact ⟨.empty, by simp, by rw [Derivation.tree], by rw [Derivation.yield, Feed.reads_nil]⟩
  · intro d hd feed rest hreads hstop
    rw [statement, run_bind_eq_ok]
    cases d with
    | compound body =>
      rw [Derivation.yield] at hreads
      rw [Derivation.within_compound] at hd
      obtain ⟨t, ht, hk⟩ : ∃ t, feed.front? = some t ∧ t.kind = .reserved .blockBegin := by
        cases body with
        | compoundStatement list =>
          rw [Derivation.yield] at hreads
          exact hreads.front
      refine ⟨t, feed, run_current_eq_ok.mpr ⟨ht, rfl⟩, ?_⟩
      rw [hk, Derivation.tree]
      simp only [run_bind_eq_ok, run_pure_eq_ok]
      exact ⟨_, rest, h.complete body hd feed rest hreads (hstop.mono fun _ _ => rfl), rfl, rfl⟩
    | assignment body =>
      rw [Derivation.yield] at hreads
      rw [Derivation.within_assignment] at hd
      obtain ⟨t, name, ht, hk⟩ :
          ∃ t name, feed.front? = some t ∧ t.kind = .identifier name := by
        cases body with
        | assignmentStatement target value =>
          rw [Derivation.yield] at hreads
          obtain ⟨t, ht, hk⟩ := hreads.front
          exact ⟨t, target, ht, hk⟩
      refine ⟨t, feed, run_current_eq_ok.mpr ⟨ht, rfl⟩, ?_⟩
      rw [hk, Derivation.tree]
      refine (assignment_readBy (.assignmentStatement :: rules)).complete body hd feed rest hreads
        (hstop.mono fun k hk => ?_)
      exact (Bool.or_eq_false_iff.mp hk).2
    | empty =>
      rw [Derivation.yield, Feed.reads_nil] at hreads
      subst hreads
      obtain ⟨t, ht, hgoes⟩ := hstop
      refine ⟨t, rest, run_current_eq_ok.mpr ⟨ht, rfl⟩, ?_⟩
      rw [Derivation.tree]
      split
      · rename_i hk
        simp [Rule.goesOn, TokenKind.states, hk] at hgoes
      · rename_i hk
        simp [Rule.goesOn, TokenKind.states, hk, name?] at hgoes
      · rfl

private theorem statementList_readBy {p : Parse Statement} {n : Nat}
    (h : Rule.statement.ReadBy p (n + 1)) : Rule.statementList.ReadBy (statementList p) n := by
  have hothers := Phrase.many_only_readBy (.mark .semicolon) (by simp) rfl h
  apply Rule.readBy_of
  · intro feed ss rest hrun
    simp only [statementList, run_bind_eq_ok, run_pure_eq_ok] at hrun
    obtain ⟨first, mid, hfirst, others, _, hmany, rfl, rfl⟩ := hrun
    obtain ⟨d, hd, rfl, hreads⟩ := h.sound _ _ _ hfirst
    obtain ⟨ds, hds, rfl, hreads'⟩ := hothers.sound _ _ _ hmany
    refine ⟨.statementList d ds, Derivation.within_statementList.mpr ⟨hd, hds⟩, ?_, ?_⟩
    · rw [Derivation.tree]
      rfl
    · rw [Derivation.yield, Feed.reads_append]
      exact ⟨mid, hreads, hreads'⟩
  · intro d hd feed rest hreads hstop
    cases d with
    | statementList first others =>
      rw [Derivation.yield, Feed.reads_append] at hreads
      obtain ⟨mid, hfirst, hrest⟩ := hreads
      rw [Derivation.within_statementList] at hd
      have hmid : mid.Stops Rule.statement.goesOn := by
        cases others with
        | nil =>
          obtain rfl : rest = mid := Feed.reads_nil.mp hrest
          exact hstop.mono fun k hk => (Bool.or_eq_false_iff.mp hk).1
        | cons s ss =>
          rw [List.flatMap_cons, List.cons_append] at hrest
          exact hrest.stops rfl
      have hrun := h.complete first hd.1 feed mid hfirst hmid
      have hmany := hothers.complete others hd.2 mid rest hrest hstop
      simp only [statementList, run_bind_eq_ok, run_pure_eq_ok, Derivation.tree]
      exact ⟨_, mid, hrun, _, rest, hmany, rfl, rfl⟩

private theorem compound_readBy_of (hn : rules.length ≤ Rule.limit)
    (hlist : Rule.statementList.ReadBy
      (statementList (statement (.statement :: .statementList :: rules)
        (compound (.compoundStatement :: .statement :: .statementList :: rules))))
      (rules.length + 1)) :
    Rule.compoundStatement.ReadBy (compound rules) rules.length := by
  apply Rule.readBy_of
  · intro feed body rest h
    rw [compound, dif_pos hn] at h
    simp only [run_bind_eq_ok, run_expect_reserved_eq_ok, run_current_eq_ok] at h
    obtain ⟨_, mid, hopen, body', mid', hbody, t, _, ⟨ht, rfl⟩, h⟩ := h
    split at h
    · rename_i hclose
      simp only [run_bind_eq_ok, run_pure_eq_ok] at h
      obtain ⟨_, _, hadvance, rfl, rfl⟩ := h
      have hend := (run_advance_kind_eq_ok ht hclose (by simp)).mp hadvance
      obtain ⟨d, hd, rfl, hreads⟩ := hlist.sound _ _ _ hbody
      refine ⟨.compoundStatement d, by simpa using ⟨hn, hd⟩, by rw [Derivation.tree], ?_⟩
      rw [Derivation.yield, Feed.reads_cons]
      exact ⟨mid, hopen, Feed.reads_append.mpr ⟨mid', hreads, hend⟩⟩
    · exact absurd h run_refuse_ne_ok
  · intro d hd feed rest hreads hstop
    cases d with
    | compoundStatement body =>
      rw [Derivation.within_compoundStatement] at hd
      rw [Derivation.yield, Feed.reads_cons] at hreads
      obtain ⟨mid, hopen, h⟩ := hreads
      obtain ⟨mid', hbody, hclose⟩ := Feed.reads_append.mp h
      obtain ⟨t, ht, hk⟩ := hclose.front
      have hrun := hlist.complete body hd.2 mid mid' hbody (hclose.stops rfl)
      have hadvance := (run_advance_kind_eq_ok ht hk (by simp)).mpr hclose
      rw [compound, dif_pos hn, Derivation.tree]
      simp only [run_bind_eq_ok, run_expect_reserved_eq_ok, run_current_eq_ok]
      refine ⟨(), mid, hopen, _, mid', hrun, t, mid', ⟨ht, rfl⟩, ?_⟩
      rw [if_pos hk]
      exact run_bind_eq_ok.mpr ⟨(), rest, hadvance, rfl⟩

private theorem compound_readBy (rules : List Rule) :
    Rule.compoundStatement.ReadBy (compound rules) rules.length := by
  induction rules using Rule.nestingInduction with
  | step rules ih =>
    by_cases hn : rules.length ≤ Rule.limit
    · have hinner := ih hn (.compoundStatement :: .statement :: .statementList :: rules)
        (by simp +arith)
      exact compound_readBy_of hn (statementList_readBy
        (statement_readBy (.statement :: .statementList :: rules) hinner))
    · apply Rule.readBy_of
      · intro feed e rest h
        rw [compound, dif_neg hn] at h
        exact absurd h run_refuse_ne_ok
      · intro d hd
        cases d with
        | compoundStatement body =>
          rw [Derivation.within_compoundStatement] at hd
          exact absurd hd.1 hn

end Statements

section Declarations

variable {rules : List Rule} {feed rest : Feed}

private theorem run_typeSpec_eq_ok {name : String} :
    (typeSpec rules).run feed = .ok name rest ↔
      ∃ d : Derivation .typeSpec, d.tree = name ∧ feed.Reads d.yield rest := by
  rw [typeSpec, run_bind_eq_ok]
  constructor
  · rintro ⟨t, _, hcurrent, h⟩
    obtain ⟨ht, rfl⟩ := run_current_eq_ok.mp hcurrent
    split at h
    · rename_i hk
      simp only [run_bind_eq_ok, run_pure_eq_ok] at h
      obtain ⟨_, _, hadvance, rfl, rfl⟩ := h
      refine ⟨.integerType, by rw [Derivation.tree], ?_⟩
      rw [Derivation.yield]
      exact (run_advance_kind_eq_ok ht hk (by simp)).mp hadvance
    · rename_i hk
      simp only [run_bind_eq_ok, run_pure_eq_ok] at h
      obtain ⟨_, _, hadvance, rfl, rfl⟩ := h
      refine ⟨.realType, by rw [Derivation.tree], ?_⟩
      rw [Derivation.yield]
      exact (run_advance_kind_eq_ok ht hk (by simp)).mp hadvance
    · exact absurd h run_refuse_ne_ok
  · rintro ⟨d, rfl, hreads⟩
    cases d <;> rw [Derivation.yield] at hreads
    all_goals
      obtain ⟨t, ht, hk⟩ := hreads.front
      have hadvance := (run_advance_kind_eq_ok ht hk (by simp)).mpr hreads
      refine ⟨t, feed, run_current_eq_ok.mpr ⟨ht, rfl⟩, ?_⟩
      rw [hk, Derivation.tree]
      exact run_bind_eq_ok.mpr ⟨(), rest, hadvance, rfl⟩

def names : Phrase String String where
  fits _ := True
  yield name := [.identifier name]
  tree := id

private theorem identifier_readBy (rules : List Rule) :
    names.ReadBy (identifier rules) fun _ => false where
  sound _ name _ h := ⟨name, trivial, rfl, run_identifier_eq_ok.mp h⟩
  complete _ _ _ _ h _ := run_identifier_eq_ok.mpr h

private theorem run_varsAfter_eq_ok {first : String} {ds : List Declaration} :
    (varsAfter rules first).run feed = .ok ds rest ↔
      ∃ d : Derivation .varDeclaration, ∃ ks, d.tree = ds ∧ d.yield = .identifier first :: ks ∧
        feed.Reads (ks ++ [.mark .semicolon]) rest := by
  have hothers := Phrase.many_only_readBy (.mark .comma) (by simp) rfl
    (identifier_readBy (.varDeclaration :: rules))
  simp only [varsAfter, run_bind_eq_ok, run_expect_mark_eq_ok, run_typeSpec_eq_ok, run_pure_eq_ok]
  constructor
  · rintro ⟨others, mid₁, hmany, _, mid₂, hcolon, type, mid₃, ⟨d, rfl, htype⟩, _, _, hsemi, rfl,
      rfl⟩
    obtain ⟨ns, -, rfl, hnames⟩ := hothers.sound _ _ _ hmany
    refine ⟨.varDeclaration first ns d, _, ?_, by rw [Derivation.yield], ?_⟩
    · rw [Derivation.tree]
      simp only [Phrase.row, Phrase.behind, names, List.map_id]
    · simp only [List.append_assoc, Feed.reads_append]
      exact ⟨mid₁, hnames, mid₂, hcolon, mid₃, htype, hsemi⟩
  · rintro ⟨d, ks, rfl, hyield, hreads⟩
    cases d with
    | varDeclaration first' ns type =>
      rw [Derivation.yield] at hyield
      obtain ⟨⟨⟩, rfl⟩ := List.cons.inj hyield
      simp only [List.append_assoc, Feed.reads_append] at hreads
      obtain ⟨mid₁, hnames, mid₂, hcolon, mid₃, htype, hsemi⟩ := hreads
      have hmany := hothers.complete ns (fun _ _ => trivial) feed mid₁ hnames (hcolon.stops rfl)
      refine ⟨_, mid₁, hmany, (), mid₂, hcolon, _, mid₃, ⟨type, rfl, htype⟩, (), rest, hsemi, ?_,
        rfl⟩
      rw [Derivation.tree]
      simp only [Phrase.row, Phrase.behind, names, List.map_id]

private theorem exists_yield_varDeclaration (d : Derivation .varDeclaration) :
    ∃ first ks, d.yield = .identifier first :: ks := by
  cases d
  exact ⟨_, _, by rw [Derivation.yield]⟩

def closedVars : Phrase (Derivation .varDeclaration) (List Declaration) where
  fits _ := True
  yield d := d.yield ++ [.mark .semicolon]
  tree := Derivation.tree

private theorem many_varsAfter_readBy (rules : List Rule) :
    closedVars.row.ReadBy (many name? (varsAfter rules)) fun k => (name? k).isSome := by
  refine (Phrase.many_readBy (fun _ => false) ?_ ?_).mono ?_
  · intro k first hk
    unfold name? at hk
    split at hk
    · cases hk
      refine ⟨by simp, ?_⟩
      intro feed ds rest hds
      obtain ⟨d, ks, rfl, hyield, hreads⟩ := run_varsAfter_eq_ok.mp hds
      exact ⟨d, ks ++ [.mark .semicolon], trivial, rfl, by simp only [closedVars, hyield,
        List.cons_append], hreads⟩
    · cases hk
  · intro d _
    obtain ⟨first, ks, hyield⟩ := exists_yield_varDeclaration d
    refine ⟨.identifier first, first, ks ++ [.mark .semicolon], by simp only [closedVars, hyield,
      List.cons_append], rfl, rfl, ?_⟩
    intro feed rest h _
    exact run_varsAfter_eq_ok.mpr ⟨d, ks, rfl, hyield, h⟩
  · intro k hk
    exact hk

/-- What stands behind `VAR`. -/
def varGroups : Phrase (Derivation .varDeclaration × List (Derivation .varDeclaration))
    (List Declaration) where
  fits _ := True
  yield g := g.1.yield ++ [.mark .semicolon] ++ g.2.flatMap fun d => d.yield ++ [.mark .semicolon]
  tree g := g.1.tree ++ g.2.flatMap fun d => d.tree

private theorem varGroup_readBy (rules : List Rule) :
    varGroups.ReadBy (varGroup rules) fun k => (name? k).isSome where
  sound := by
    intro feed ds rest h
    simp only [varGroup, run_bind_eq_ok, run_identifier_eq_ok, run_varsAfter_eq_ok,
      run_pure_eq_ok] at h
    obtain ⟨name, mid, hname, _, mid', ⟨d, ks, rfl, hyield, hreads⟩, _, _, hmany, rfl, rfl⟩ := h
    obtain ⟨ds, -, rfl, hrest⟩ := (many_varsAfter_readBy rules).sound _ _ _ hmany
    refine ⟨(d, ds), trivial, by simp only [varGroups, List.flatMap_def]; rfl, ?_⟩
    simp only [varGroups, hyield, List.cons_append]
    refine Feed.reads_cons.mpr ⟨mid, hname, ?_⟩
    exact Feed.reads_append.mpr ⟨mid', hreads, hrest⟩
  complete := by
    rintro ⟨d, ds⟩ - feed rest h hstop
    obtain ⟨first, ks, hyield⟩ := exists_yield_varDeclaration d
    simp only [varGroups, hyield, List.cons_append] at h
    obtain ⟨mid, hname, h⟩ := Feed.reads_cons.mp h
    obtain ⟨mid', hreads, hrest⟩ := Feed.reads_append.mp h
    have hmany := (many_varsAfter_readBy rules).complete ds (fun _ _ => trivial) mid' rest hrest
      hstop
    simp only [varGroup, run_bind_eq_ok, run_identifier_eq_ok, run_varsAfter_eq_ok, run_pure_eq_ok]
    refine ⟨first, mid, hname, _, mid', ⟨d, ks, rfl, hyield, hreads⟩, _, rest, hmany, ?_, rfl⟩
    simp only [varGroups, List.flatMap_def]
    rfl

end Declarations

section Blocks

abbrev ProceduresReadBy (p : Parse (List Declaration)) (depth : Nat) : Prop :=
  (Rule.procedureDeclaration.phrase depth).row.ReadBy p (· = .reserved .procedure)

variable {rules : List Rule}

private theorem block_readBy (rules : List Rule) {p : Parse (List Declaration)}
    (h : ProceduresReadBy p (rules.length + 2)) :
    Rule.block.ReadBy (block rules p) rules.length := by
  have hgroups := Phrase.many_only_readBy (.reserved .var) (by simp) rfl
    (varGroup_readBy (.declarations :: rules))
  have hcompound := compound_readBy (.compoundStatement :: rules)
  apply Rule.readBy_of
  · intro feed b rest hrun
    simp only [block, run_bind_eq_ok, run_pure_eq_ok] at hrun
    obtain ⟨groups, mid, hmany, ps, mid', hps, body, _, hbody, rfl, rfl⟩ := hrun
    obtain ⟨gs, -, rfl, hreads⟩ := hgroups.sound _ _ _ hmany
    obtain ⟨ds, hds, rfl, hreads'⟩ := h.sound _ _ _ hps
    obtain ⟨d, hd, rfl, hreads''⟩ := hcompound.sound _ _ _ hbody
    refine ⟨.block (.declarations gs ds) d,
      Derivation.within_block.mpr ⟨Derivation.within_declarations.mpr hds, hd⟩, ?_, ?_⟩
    · rw [Derivation.tree, Derivation.tree, List.flatMap_def]
      rfl
    · rw [Derivation.yield, Derivation.yield, List.append_assoc, Feed.reads_append]
      exact ⟨mid, hreads, Feed.reads_append.mpr ⟨mid', hreads', hreads''⟩⟩
  · intro d hd feed rest hreads hstop
    cases d with
    | block ds body =>
      cases ds with
      | declarations gs ps =>
        rw [Derivation.within_block, Derivation.within_declarations] at hd
        rw [Derivation.yield, Derivation.yield, List.append_assoc, Feed.reads_append] at hreads
        obtain ⟨mid, hvars, hreads⟩ := hreads
        obtain ⟨mid', hps, hbody⟩ := Feed.reads_append.mp hreads
        have hbegin : ∀ goesOn : TokenKind → Bool, goesOn (.reserved .blockBegin) = false →
            mid'.Stops goesOn := by
          intro goesOn hk
          cases body with
          | compoundStatement list =>
            rw [Derivation.yield] at hbody
            exact hbody.stops hk
        have hmid : mid.Stops fun k => (name? k).isSome || k = .reserved .var := by
          cases ps with
          | nil =>
            obtain rfl : mid' = mid := Feed.reads_nil.mp hps
            exact hbegin _ rfl
          | cons d ds =>
            cases d
            rw [List.flatMap_cons, Derivation.yield] at hps
            exact hps.stops rfl
        have hrun_vars := hgroups.complete gs (fun _ _ => trivial) feed mid hvars hmid
        have hrun_procedures := h.complete ps hd.1 mid mid' hps (hbegin _ rfl)
        have hrun_body := hcompound.complete body hd.2 mid' rest hbody hstop
        simp only [block, run_bind_eq_ok, run_pure_eq_ok]
        refine ⟨_, mid, hrun_vars, _, mid', hrun_procedures, _, rest, hrun_body, ?_, rfl⟩
        rw [Derivation.tree, Derivation.tree, List.flatMap_def]
        rfl

private theorem yield_procedureDeclaration (name : String) (body : Derivation .block) :
    (Derivation.procedureDeclaration name body).yield = .reserved .procedure ::
      .identifier name :: .mark .semicolon :: (body.yield ++ [.mark .semicolon]) := by
  rw [Derivation.yield]

private theorem procedures_readBy_of (hn : rules.length ≤ Rule.limit)
    (hblock : Rule.block.ReadBy (block (.block :: rules) (procedures (.procedureDeclaration ::
      .declarations :: .block :: rules))) (rules.length + 1)) :
    ProceduresReadBy (procedures rules) rules.length := by
  rw [procedures, dif_pos hn]
  refine (Phrase.many_readBy (fun _ => false) ?_ ?_).mono ?_
  · intro k b hb
    obtain rfl : k = .reserved .procedure := by simpa [only] using hb
    refine ⟨by simp, ?_⟩
    intro feed d rest hd
    simp only [run_bind_eq_ok, run_identifier_eq_ok, run_pure_eq_ok,
      run_expect_mark_eq_ok] at hd
    obtain ⟨name, mid₁, hname, _, mid₂, hsemi, body, mid₃, hbody, _, _, hsemi', rfl, rfl⟩ := hd
    obtain ⟨d, hd, rfl, hreads⟩ := hblock.sound _ _ _ hbody
    refine ⟨.procedureDeclaration name d, _, Derivation.within_procedureDeclaration.mpr ⟨hn, hd⟩,
      by simp only [Derivation.tree], yield_procedureDeclaration name d, ?_⟩
    rw [Feed.reads_cons]
    exact ⟨mid₁, hname, Feed.reads_cons.mpr ⟨mid₂, hsemi, Feed.reads_append.mpr
      ⟨mid₃, hreads, hsemi'⟩⟩⟩
  · intro d hd
    cases d with
    | procedureDeclaration name body =>
      obtain ⟨-, hbody⟩ := Derivation.within_procedureDeclaration.mp hd
      refine ⟨.reserved .procedure, (), _, yield_procedureDeclaration name body, rfl, rfl, ?_⟩
      intro feed rest h _
      obtain ⟨mid₁, hname, h⟩ := Feed.reads_cons.mp h
      obtain ⟨mid₂, hsemi, h⟩ := Feed.reads_cons.mp h
      obtain ⟨mid₃, hreads, hsemi'⟩ := Feed.reads_append.mp h
      have hrun := hblock.complete body hbody mid₂ mid₃ hreads (hsemi'.stops rfl)
      simp only [run_bind_eq_ok, run_identifier_eq_ok, run_pure_eq_ok, Derivation.tree,
        run_expect_mark_eq_ok]
      exact ⟨name, mid₁, hname, (), mid₂, hsemi, _, mid₃, hrun, (), rest, hsemi', rfl, rfl⟩
  · intro k hk
    simpa [only] using hk

private theorem procedures_readBy (rules : List Rule) :
    ProceduresReadBy (procedures rules) rules.length := by
  induction rules using Rule.nestingInduction with
  | step rules ih =>
    by_cases hn : rules.length ≤ Rule.limit
    · have hinner := ih hn (.procedureDeclaration :: .declarations :: .block :: rules)
        (by simp +arith)
      exact procedures_readBy_of hn (block_readBy (.block :: rules) hinner)
    · constructor
      · intro feed ds rest h
        rw [procedures, dif_neg hn, run_bind_eq_ok] at h
        obtain ⟨t, _, hcurrent, h⟩ := h
        obtain ⟨ht, rfl⟩ := run_current_eq_ok.mp hcurrent
        split at h
        · exact absurd h run_refuse_ne_ok
        · rw [run_pure_eq_ok] at h
          obtain ⟨rfl, rfl⟩ := h
          exact ⟨[], List.forall_mem_nil _, rfl, Feed.reads_nil.mpr rfl⟩
      · intro ds hds feed rest hreads hstop
        cases ds with
        | nil =>
          obtain rfl : rest = feed := Feed.reads_nil.mp hreads
          obtain ⟨t, ht, hk⟩ := hstop
          rw [procedures, dif_neg hn, run_bind_eq_ok]
          refine ⟨t, rest, run_current_eq_ok.mpr ⟨ht, rfl⟩, ?_⟩
          rw [if_neg (by simpa using hk)]
          rfl
        | cons d ds =>
          have hd : d.Within rules.length := hds d List.mem_cons_self
          cases d with
          | procedureDeclaration name body =>
            rw [Derivation.within_procedureDeclaration] at hd
            exact absurd hd.1 hn

theorem block_below_readBy (rules : List Rule) :
    Rule.block.ReadBy (block rules
      (procedures (.procedureDeclaration :: .declarations :: rules))) rules.length :=
  block_readBy rules (procedures_readBy (.procedureDeclaration :: .declarations :: rules))

end Blocks

end MiniPascal.Parse
