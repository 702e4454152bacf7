import MiniPascal.Proofs.Grammar.ExpressionReading
import MiniPascal.Proofs.Grammar.Sentences

/-!
Nothing but depth keeps a sentence from being read. On a sentence a step comes to its end, up to a
token that does not go on, or it finds the sentence too deep.
-/

set_option autoImplicit false
set_option relaxedAutoImplicit false

open scoped Computability

namespace MiniPascal

/-- A reply that leaves the given rest, or an error for want of depth. -/
def Reply.Settles {α : Type} (reply : Reply α) (rest : Feed) : Prop :=
  (∃ a, reply = .ok a rest) ∨
    ∃ m rest', reply = .error (.misplaced m) rest' ∧ m.expected = .shallower

private theorem Feed.Reads.visible {feed rest : Feed} {ks : List TokenKind}
    {goesOn : TokenKind → Bool}
    (h : feed.Reads ks rest) (hstop : rest.Stops goesOn) : feed.Stops fun _ => false := by
  cases ks with
  | nil =>
    obtain rfl : rest = feed := reads_nil.mp h
    exact hstop.mono fun _ _ => rfl
  | cons k ks => exact h.stops rfl

/-- Where a row of the language stands and then a token that is none of `after`, there is a token in
front that is none of `goesOn`. -/
def Leads (L : Language TokenKind) (goesOn after : TokenKind → Bool) : Prop :=
  ∀ ks ∈ L, ∀ feed rest : Feed, feed.Reads ks rest → rest.Stops after → feed.Stops goesOn

namespace Leads

open Sentences

variable {L M : Language TokenKind} {goesOn between after : TokenKind → Bool}

private theorem mul (hL : Leads L goesOn between) (hM : Leads M between after) :
    Leads (L * M) goesOn after := by
  rintro _ ⟨ks, hks, ks', hks', rfl⟩ feed rest hreads hstop
  obtain ⟨mid, hreads, hreads'⟩ := Feed.reads_append.mp hreads
  exact hL ks hks feed mid hreads (hM ks' hks' mid rest hreads' hstop)

private theorem one (hle : ∀ k, after k = false → goesOn k = false) : Leads 1 goesOn after := by
  rintro _ rfl feed rest hreads hstop
  obtain rfl : rest = feed := Feed.reads_nil.mp hreads
  exact hstop.mono hle

private theorem kstar (hL : Leads L goesOn goesOn) (hle : ∀ k, after k = false → goesOn k = false) :
    Leads L∗ goesOn after := by
  intro ks hks
  obtain ⟨rows, rfl, hrows⟩ := Language.mem_kstar.mp hks
  clear hks
  induction rows with
  | nil => exact one hle [] rfl
  | cons row rows ih =>
    obtain ⟨hrow, hrows⟩ := List.forall_mem_cons.mp hrows
    intro feed rest hreads hstop
    obtain ⟨mid, hreads, hreads'⟩ := Feed.reads_append.mp hreads
    exact hL row hrow feed mid hreads (ih hrows mid rest hreads' hstop)

private theorem any : Leads L (fun _ => false) after :=
  fun _ _ _ _ hreads hstop => hreads.visible hstop

private theorem spelled {D : Type} {k : D → TokenKind} (h : ∀ d, goesOn (k d) = false) :
    Leads (Sentences.spelled fun d => [k d]) goesOn after := by
  rintro _ ⟨d, rfl⟩ feed rest hreads -
  exact hreads.stops (h d)

private theorem spelled_mul {D : Type} {k : D → TokenKind} (h : ∀ d, goesOn (k d) = false) :
    Leads (Sentences.spelled (fun d => [k d]) * M) goesOn after := by
  rintro _ ⟨_, ⟨d, rfl⟩, ks, -, rfl⟩ feed rest hreads -
  exact Feed.Reads.stops hreads (h d)

end Leads

namespace Parse

open Sentences

variable {α β γ : Type} {L M : Language TokenKind} {feed rest : Feed} {rules : List Rule}
  {goesOn between after : TokenKind → Bool}

/-- A step reads the rows of the language, where no token follows that goes on, or finds them too
deep. -/
def Accepts (p : Parse α) (L : Language TokenKind) (goesOn : TokenKind → Bool) : Prop :=
  ∀ ks ∈ L, ∀ feed rest, feed.Reads ks rest → rest.Stops goesOn → (p.run feed).Settles rest

private theorem settles_bind {p : Parse α} {g : α → Parse β} {mid : Feed}
    (hp : (p.run feed).Settles mid)
    (hg : ∀ a, ((g a).run mid).Settles rest) : ((p >>= g).run feed).Settles rest := by
  rw [run_bind]
  rcases hp with ⟨a, ha⟩ | ⟨m, rest', hm, hdeep⟩
  · rw [ha]
    exact hg a
  · rw [hm]
    exact .inr ⟨m, rest', rfl, hdeep⟩

private theorem Accepts.bind {p : Parse α} {g : α → Parse β} (hp : p.Accepts L between)
    (hM : Leads M between after) (hg : ∀ a, (g a).Accepts M after) :
    (p >>= g).Accepts (L * M) after := by
  rintro _ ⟨ks, hks, ks', hks', rfl⟩ feed rest hreads hstop
  obtain ⟨mid, hreads, hreads'⟩ := Feed.reads_append.mp hreads
  have hmid : mid.Stops between := hM ks' hks' mid rest hreads' hstop
  exact settles_bind (hp ks hks feed mid hreads hmid) fun a => hg a ks' hks' mid rest hreads' hstop

private theorem Accepts.map {p : Parse α} {f : α → β} (hp : p.Accepts L goesOn) :
    (p >>= fun a => pure (f a)).Accepts L goesOn := by
  intro ks hks feed rest hreads hstop
  exact settles_bind (hp ks hks feed rest hreads hstop) fun a => .inl ⟨f a, rfl⟩

private theorem Accepts.mono {p : Parse α} (hp : p.Accepts L goesOn)
    (hle : ∀ k, after k = false → goesOn k = false) : p.Accepts L after := by
  intro ks hks feed rest hreads hstop
  exact hp ks hks feed rest hreads (hstop.mono hle)

private theorem accepts_current {g : Token → Parse β}
    (h : ∀ ks ∈ L, ∀ t feed rest, feed.front? = some t → feed.Reads ks rest → rest.Stops goesOn →
      ((g t).run feed).Settles rest) : (current >>= g).Accepts L goesOn := by
  intro ks hks feed rest hreads hstop
  obtain ⟨t, ht, -⟩ := hreads.visible hstop
  rw [run_bind, run_current_eq_ok.mpr ⟨ht, rfl⟩]
  exact h ks hks t feed rest ht hreads hstop

private theorem accepts_refuse : (refuse rules .shallower : Parse α).Accepts L goesOn := by
  apply accepts_current
  intro ks hks t feed rest ht hreads hstop
  exact .inr ⟨_, feed, rfl, rfl⟩

private theorem settles_advance {k : TokenKind} (h : feed.Reads [k] rest) :
    (advance.run feed).Settles rest := by
  obtain ⟨t, ht, -, hending⟩ := Feed.reads_singleton.mp h
  obtain ⟨tokens, ending⟩ := feed
  obtain rfl : tokens = t :: rest.tokens := ht
  obtain rfl : rest.ending = ending := hending
  exact .inl ⟨(), rfl⟩

private theorem accepts_expect_mark (m : Mark) :
    (expect rules (.mark m)).Accepts (token (.mark m)) fun _ => false := by
  intro ks hks feed rest hreads hstop
  rw [mem_token.mp hks] at hreads
  exact .inl ⟨(), run_expect_mark_eq_ok.mpr hreads⟩

private theorem accepts_expect_reserved (w : Reserved) :
    (expect rules (.reserved w)).Accepts (token (.reserved w)) fun _ => false := by
  intro ks hks feed rest hreads hstop
  rw [mem_token.mp hks] at hreads
  exact .inl ⟨(), run_expect_reserved_eq_ok.mpr hreads⟩

private theorem accepts_identifier : (identifier rules).Accepts identifiers fun _ => false := by
  intro ks hks feed rest hreads hstop
  obtain ⟨name, rfl⟩ := mem_identifiers.mp hks
  exact .inl ⟨name, run_identifier_eq_ok.mpr hreads⟩

section Many

variable {T : Language TokenKind} {accept? : TokenKind → Option β} {item : β → Parse γ}

private theorem run_many_of_none {t : Token} (ht : feed.front? = some t)
    (h : accept? t.kind = none) : (many accept? item).run feed = .ok [] feed := by
  obtain ⟨tokens, ending⟩ := feed
  cases tokens with
  | nil =>
    rw [run_many_nil]
    cases ending with
    | finish p => rfl
    | fault e => cases ht
  | cons u us =>
    cases ht
    rw [run_many_cons, h]

private theorem run_many_of_some {k : TokenKind} {b : β} (hk : feed.Reads [k] rest)
    (h : accept? k = some b) :
    (many accept? item).run feed = (do
      let c ← item b
      let cs ← many accept? item
      return c :: cs).run rest := by
  obtain ⟨t, ht, rfl, hending⟩ := Feed.reads_singleton.mp hk
  obtain ⟨tokens, ending⟩ := feed
  obtain rfl : tokens = t :: rest.tokens := ht
  obtain rfl : rest.ending = ending := hending
  rw [run_many_cons, h]

private theorem accepts_many
    (haccept : ∀ ks ∈ T, ∃ k b, ks = [k] ∧ accept? k = some b ∧ goesOn k = false)
    (hitem : ∀ b, (item b).Accepts M goesOn) :
    (many accept? item).Accepts (T * M)∗ fun k => goesOn k || (accept? k).isSome := by
  have hlead : Leads (T * M)∗ goesOn fun k => goesOn k || (accept? k).isSome := by
    refine .kstar ?_ fun k hk => (Bool.or_eq_false_iff.mp hk).1
    rintro _ ⟨ks, hks, ks', hks', rfl⟩ feed rest hreads -
    obtain ⟨k, b, rfl, -, hk⟩ := haccept ks hks
    exact hreads.stops hk
  intro ks hks
  obtain ⟨rows, rfl, hrows⟩ := Language.mem_kstar.mp hks
  clear hks
  induction rows with
  | nil =>
    rintro feed rest hreads ⟨t, ht, hgoes⟩
    obtain rfl : rest = feed := Feed.reads_nil.mp hreads
    have hnone : accept? t.kind = none := by simpa using (Bool.or_eq_false_iff.mp hgoes).2
    exact .inl ⟨[], run_many_of_none ht hnone⟩
  | cons row rows ih =>
    obtain ⟨⟨ks, hks, ks', hks', rfl⟩, hall⟩ := List.forall_mem_cons.mp hrows
    obtain ⟨k, b, rfl, hb, -⟩ := haccept ks hks
    intro feed rest hreads hstop
    obtain ⟨mid, hfirst, hothers⟩ := Feed.reads_append.mp hreads
    obtain ⟨mid', hopen, hinside⟩ := Feed.reads_append.mp hfirst
    have hmem : rows.flatten ∈ (T * M)∗ := Language.mem_kstar.mpr ⟨rows, rfl, hall⟩
    have hmid := hlead _ hmem mid rest hothers hstop
    have hmany := ih hall mid rest hothers hstop
    rw [run_many_of_some hopen hb]
    refine settles_bind (hitem b ks' hks' mid' mid hinside hmid) fun c => ?_
    exact settles_bind hmany fun cs => .inl ⟨c :: cs, rfl⟩

private theorem accepts_many_only (goesOn : TokenKind → Bool) {k : TokenKind} {p : Parse γ}
    (hgoes : goesOn k = false) (hp : p.Accepts M goesOn) :
    (many (only k) fun _ => p).Accepts (token k * M)∗ fun k' => goesOn k' || k' = k := by
  have hmany : (many (only k) fun _ => p).Accepts (token k * M)∗
      fun k' => goesOn k' || (only k k').isSome := by
    refine accepts_many ?_ fun _ => hp
    intro ks hks
    exact ⟨k, (), mem_token.mp hks, by simp [only], hgoes⟩
  exact hmany.mono fun k' hk' => by simpa [only] using hk'

end Many

section Expressions

private theorem accepts_chain {op? : TokenKind → Option BinaryOp} {operand : Parse Expr}
    {T : Language TokenKind}
    (hop : ∀ ks ∈ T, ∃ k b, ks = [k] ∧ op? k = some b ∧ goesOn k = false)
    (h : operand.Accepts L goesOn) :
    (chain op? operand).Accepts (L * (T * L)∗) fun k => goesOn k || (op? k).isSome := by
  have hmany := accepts_many hop fun b => h.map (f := fun right => (b, right))
  refine h.bind ?_ fun _ => hmany.map
  refine .kstar ?_ fun k hk => (Bool.or_eq_false_iff.mp hk).1
  rintro _ ⟨ks, hks, ks', hks', rfl⟩ feed rest hreads -
  obtain ⟨k, b, rfl, -, hk⟩ := hop ks hks
  exact hreads.stops hk

private theorem accepts_sumOf {p : Parse Expr}
    (h : p.Accepts Rule.factor.sentences Rule.factor.goesOn) :
    (sumOf p).Accepts Rule.expr.sentences Rule.expr.goesOn := by
  have hterm : (chain productOp? p).Accepts Rule.term.sentences Rule.term.goesOn := by
    rw [term_eq]
    refine (accepts_chain ?_ h).mono fun k hk => hk
    rintro _ ⟨o, rfl⟩
    exact ⟨o.token, o.op, rfl, productOp?_eq_some_iff.mpr ⟨o, rfl, rfl⟩, rfl⟩
  have hsum : (chain sumOp? (chain productOp? p)).Accepts Rule.expr.sentences
      fun k => Rule.term.goesOn k || (sumOp? k).isSome := by
    rw [expr_eq]
    refine accepts_chain ?_ hterm
    rintro _ ⟨o, rfl⟩
    refine ⟨o.token, o.op, rfl, sumOp?_eq_some_iff.mpr ⟨o, rfl, rfl⟩, ?_⟩
    cases o <;> rfl
  refine hsum.mono fun k hk => ?_
  simpa [Rule.goesOn, TokenKind.operates, Bool.or_comm] using hk

private theorem exists_atom?_of_mem {ks : List TokenKind} (h : ks ∈ atoms) :
    ∃ k e, ks = [k] ∧ sign? k = none ∧ atom? k = some e := by
  rcases h with ⟨n, rfl⟩ | ⟨x, rfl⟩ | ⟨name, rfl⟩
  · exact ⟨_, .integer n, rfl, rfl, rfl⟩
  · exact ⟨_, .real x, rfl, rfl, rfl⟩
  · exact ⟨_, .var name, rfl, rfl, rfl⟩

private theorem kind_of_reads {t : Token} {k : TokenKind} {ks : List TokenKind}
    (ht : feed.front? = some t) (h : feed.Reads (k :: ks) rest) : t.kind = k := by
  obtain ⟨u, hu, hk⟩ := h.front
  cases ht.symm.trans hu
  exact hk

private theorem accepts_factor (rules : List Rule) :
    (factor rules).Accepts Rule.factor.sentences Rule.factor.goesOn := by
  -- By induction on how many more rules may be open; below the last one all is too deep.
  induction rules using Rule.nestingInduction with
  | step rules ih =>
    rw [factor]
    split
    · rename_i hn
      have hsigned := ih hn (.factor :: rules) (by simp +arith)
      have hinner := ih hn (.factor :: .term :: .expr :: rules) (by simp +arith)
      apply accepts_current
      intro ks hks t feed rest ht hreads hstop
      rcases factor_eq.le hks with hsign | hatom | hparens
      · obtain ⟨_, ⟨op, rfl⟩, ks', hks', rfl⟩ := hsign
        obtain ⟨mid, hopen, hoperand⟩ := Feed.reads_append.mp hreads
        rw [sign?_eq_some_iff.mpr (kind_of_reads ht hopen)]
        exact settles_bind (settles_advance hopen) fun _ =>
          hsigned.map ks' hks' mid rest hoperand hstop
      · obtain ⟨k, e, rfl, hsign, hatom⟩ := exists_atom?_of_mem hatom
        rw [kind_of_reads ht hreads, hsign, hatom]
        exact settles_bind (settles_advance hreads) fun _ => .inl ⟨e, rfl⟩
      · obtain ⟨_, hopen, ks', hks', rfl⟩ := hparens
        rw [mem_token.mp hopen] at hreads
        obtain ⟨mid, hopen, hinside⟩ := Feed.reads_append.mp hreads
        have hbody : (do
            let e ← sumOf (factor (.factor :: .term :: .expr :: rules))
            expect rules (.mark .rightParen)
            return e).Accepts (Rule.expr.sentences * token (.mark .rightParen)) fun _ => false :=
          (accepts_sumOf hinner).bind (.spelled fun _ => rfl) fun _ => (accepts_expect_mark _).map
        rw [kind_of_reads ht hopen]
        exact settles_bind (settles_advance hopen) fun _ => hbody ks' hks' mid rest hinside hstop
    · exact accepts_refuse

private theorem accepts_expr (rules : List Rule) :
    (expr rules).Accepts Rule.expr.sentences Rule.expr.goesOn :=
  accepts_sumOf (accepts_factor _)

end Expressions

section Statements

private theorem accepts_assignment (rules : List Rule) :
    (assignment rules).Accepts Rule.assignmentStatement.sentences
      Rule.assignmentStatement.goesOn := by
  rw [assignmentStatement_eq]
  exact accepts_identifier.bind .any fun _ => (accepts_expect_mark _).bind .any fun _ =>
    (accepts_expr rules).map

private theorem accepts_statement (rules : List Rule) {p : Parse (List Statement)}
    (h : p.Accepts Rule.compoundStatement.sentences Rule.compoundStatement.goesOn) :
    (statement rules p).Accepts Rule.statement.sentences Rule.statement.goesOn := by
  apply accepts_current
  intro ks hks t feed rest ht hreads hstop
  rcases statement_eq.le hks with hcompound | hassign | hempty
  · have hrun := h.map (f := Statement.compound) ks hcompound feed rest hreads
      (hstop.mono fun _ _ => rfl)
    obtain ⟨_, hbegin, ks', -, rfl⟩ := compoundStatement_eq.le hcompound
    rw [mem_token.mp hbegin] at hreads
    rw [kind_of_reads ht hreads]
    exact hrun
  · have hrun := accepts_assignment (.assignmentStatement :: rules) ks hassign feed rest hreads
      (hstop.mono fun k hk => (Bool.or_eq_false_iff.mp hk).2)
    obtain ⟨_, hname, ks', -, rfl⟩ := assignmentStatement_eq.le hassign
    obtain ⟨name, rfl⟩ := mem_identifiers.mp hname
    rw [kind_of_reads ht hreads]
    exact hrun
  · obtain rfl := hempty
    obtain rfl : rest = feed := Feed.reads_nil.mp hreads
    obtain ⟨u, hu, hk⟩ := hstop
    cases ht.symm.trans hu
    split
    · rename_i hbegin
      rw [hbegin] at hk
      cases hk
    · rename_i name hname
      rw [hname] at hk
      cases hk
    · exact .inl ⟨.skip, rfl⟩

private theorem accepts_statementList {p : Parse Statement}
    (h : p.Accepts Rule.statement.sentences Rule.statement.goesOn) :
    (statementList p).Accepts Rule.statementList.sentences Rule.statementList.goesOn := by
  rw [statementList_eq]
  have hmany := accepts_many_only Rule.statement.goesOn (k := .mark .semicolon) rfl h
  refine h.bind ?_ fun _ => hmany.map
  exact .kstar (.spelled_mul fun _ => rfl) fun k hk => (Bool.or_eq_false_iff.mp hk).1

private theorem accepts_compound (rules : List Rule) :
    (compound rules).Accepts Rule.compoundStatement.sentences Rule.compoundStatement.goesOn := by
  induction rules using Rule.nestingInduction with
  | step rules ih =>
    rw [compound]
    split
    · rename_i hn
      have hinner := ih hn (.compoundStatement :: .statement :: .statementList :: rules)
        (by simp +arith)
      have hlist := accepts_statementList
        (accepts_statement (.statement :: .statementList :: rules) hinner)
      rw [compoundStatement_eq]
      refine (accepts_expect_reserved _).bind .any fun _ =>
        hlist.bind (.spelled fun _ => rfl) fun body => accepts_current ?_
      intro ks hks t feed rest ht hreads hstop
      rw [mem_token.mp hks] at hreads
      rw [if_pos (kind_of_reads ht hreads)]
      exact settles_bind (settles_advance hreads) fun _ => .inl ⟨body, rfl⟩
    · exact accepts_refuse

end Statements

section Declarations

private theorem accepts_typeSpec :
    (typeSpec rules).Accepts Rule.typeSpec.sentences Rule.typeSpec.goesOn := by
  apply accepts_current
  intro ks hks t feed rest ht hreads hstop
  rcases typeSpec_eq.le hks with hinteger | hreal
  · rw [mem_token.mp hinteger] at hreads
    rw [kind_of_reads ht hreads]
    exact settles_bind (settles_advance hreads) fun _ => .inl ⟨_, rfl⟩
  · rw [mem_token.mp hreal] at hreads
    rw [kind_of_reads ht hreads]
    exact settles_bind (settles_advance hreads) fun _ => .inl ⟨_, rfl⟩

private theorem accepts_varsAfter (first : String) :
    (varsAfter rules first).Accepts varTail fun _ => false :=
  (accepts_many_only (fun _ => false) rfl accepts_identifier).bind
    (.spelled_mul fun _ => rfl) fun _ => (accepts_expect_mark _).bind .any fun _ =>
      accepts_typeSpec.bind .any fun _ => (accepts_expect_mark _).map

private theorem accepts_varGroup (rules : List Rule) :
    (varGroup rules).Accepts (varLine * varLine∗) fun k => (name? k).isSome := by
  rw [varLine_eq, mul_assoc]
  refine accepts_identifier.bind .any fun name => (accepts_varsAfter name).bind .any fun _ =>
    (accepts_many ?_ accepts_varsAfter).map
  intro ks hks
  obtain ⟨name, rfl⟩ := mem_identifiers.mp hks
  exact ⟨_, name, rfl, rfl, rfl⟩

private theorem leads_procedures {goesOn after : TokenKind → Bool}
    (hgoes : goesOn (.reserved .procedure) = false)
    (hle : ∀ k, after k = false → goesOn k = false) :
    Leads Rule.procedureDeclaration.sentences∗ goesOn after := by
  rw [procedureDeclaration_eq]
  exact .kstar (.spelled_mul fun _ => hgoes) hle

private theorem leads_compound {goesOn after : TokenKind → Bool}
    (hgoes : goesOn (.reserved .blockBegin) = false) :
    Leads Rule.compoundStatement.sentences goesOn after := by
  rw [compoundStatement_eq]
  exact .spelled_mul fun _ => hgoes

private theorem accepts_block (rules : List Rule) {p : Parse (List Declaration)}
    (h : p.Accepts Rule.procedureDeclaration.sentences∗ (· = .reserved .procedure)) :
    (block rules p).Accepts Rule.block.sentences Rule.block.goesOn := by
  rw [block_eq, declarations_eq, mul_assoc]
  have hvars := accepts_many_only (fun k => (name? k).isSome) (k := .reserved .var) rfl
    (accepts_varGroup (.declarations :: rules))
  refine hvars.bind ?_ fun _ => h.bind (leads_compound rfl) fun _ => (accepts_compound _).map
  exact .mul (leads_procedures rfl fun _ hk => hk) (leads_compound rfl)

private theorem accepts_procedures (rules : List Rule) :
    (procedures rules).Accepts Rule.procedureDeclaration.sentences∗ (· = .reserved .procedure) := by
  induction rules using Rule.nestingInduction with
  | step rules ih =>
    rw [procedures]
    split
    · rename_i hn
      have hinner := ih hn (.procedureDeclaration :: .declarations :: .block :: rules)
        (by simp +arith)
      rw [procedureDeclaration_eq]
      refine accepts_many_only (fun _ => false) rfl ?_
      refine accepts_identifier.bind .any fun name => ?_
      refine (accepts_expect_mark _).bind .any fun _ => ?_
      refine (accepts_block (.block :: rules) hinner).bind .any fun b => ?_
      exact (accepts_expect_mark _).map
    · apply accepts_current
      intro ks hks t feed rest ht hreads hstop
      split
      · exact accepts_refuse ks hks feed rest hreads hstop
      · rename_i hk
        obtain ⟨rows, rfl, hrows⟩ := Language.mem_kstar.mp hks
        cases rows with
        | nil =>
          obtain rfl : rest = feed := Feed.reads_nil.mp hreads
          exact .inl ⟨[], rfl⟩
        | cons row rows =>
          have hrow := procedureDeclaration_eq.le (hrows row List.mem_cons_self)
          obtain ⟨_, hopen, ks', -, rfl⟩ := hrow
          rw [mem_token.mp hopen] at hreads
          exact absurd (kind_of_reads ht hreads) hk

theorem settles_program {q : Position} {ks : List TokenKind} (h : ks ∈ Rule.program.sentences)
    (hreads : feed.Reads ks ⟨[], .finish q⟩) :
    (program.run feed).Settles ⟨[], .finish q⟩ := by
  obtain ⟨_, h₁, _, ⟨_, h₂, _, ⟨_, h₃, _, ⟨_, h₄, _, h₅, rfl⟩, rfl⟩, rfl⟩, rfl⟩ := program_eq.le h
  obtain ⟨feed₁, r₁, hreads⟩ := Feed.reads_append.mp hreads
  obtain ⟨feed₂, r₂, hreads⟩ := Feed.reads_append.mp hreads
  obtain ⟨feed₃, r₃, hreads⟩ := Feed.reads_append.mp hreads
  obtain ⟨feed₄, r₄, r₅⟩ := Feed.reads_append.mp hreads
  have hstop : Feed.Stops ⟨[], .finish q⟩ fun _ => false := ⟨.atEnd q, rfl, rfl⟩
  have hstop₄ := r₅.visible hstop
  have hstop₃ := r₄.visible hstop₄
  have hstop₂ := r₃.visible hstop₃
  refine settles_bind (accepts_expect_reserved _ _ h₁ _ _ r₁ (r₂.visible hstop₂)) fun _ => ?_
  refine settles_bind (accepts_identifier _ h₂ _ _ r₂ hstop₂) fun name => ?_
  refine settles_bind (accepts_expect_mark _ _ h₃ _ _ r₃ hstop₃) fun _ => ?_
  refine settles_bind (accepts_block _ (accepts_procedures _) _ h₄ _ _ r₄ hstop₄) fun b => ?_
  refine settles_bind (accepts_expect_mark _ _ h₅ _ _ r₅ hstop) fun _ => ?_
  exact .inl ⟨⟨name, b.1, b.2⟩, rfl⟩

end Declarations

end Parse

end MiniPascal
