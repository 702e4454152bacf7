import MiniPascal.Proofs.Grammar.ExpressionReading
import MiniPascal.Proofs.Grammar.Sentences

/-!
Where reading stops, the grammar could have gone on. What a step has taken off when it fails begins
a sentence of its rule, and so it does with a token that the error names behind it.
-/

set_option autoImplicit false
set_option relaxedAutoImplicit false

open scoped Computability

namespace MiniPascal

/-- Whatever an expectation names is possible. An expression is named by the tokens with which a
factor begins; a limit of depth names no token. -/
def Expectation.AllowedBy (possible : TokenKind → Prop) : Expectation → Prop
  | .token kind => possible kind
  | .oneOf kinds => ∀ kind ∈ kinds, possible kind
  | .identifier => ∀ name, possible (.identifier name)
  | .expression => ∀ kind ks, kind :: ks ∈ Rule.factor.sentences → possible kind
  | .shallower => True

private theorem Expectation.AllowedBy.mono {e : Expectation} {P Q : TokenKind → Prop}
    (h : e.AllowedBy P) (hPQ : ∀ k, P k → Q k) : e.AllowedBy Q := by
  cases e with
  | token kind => exact hPQ kind h
  | oneOf kinds => exact fun kind hkind => hPQ kind (h kind hkind)
  | identifier => exact fun name => hPQ _ (h name)
  | expression => exact fun kind ks hks => hPQ kind (h kind ks hks)
  | shallower => trivial

namespace Reply

variable {α : Type} {reply : Reply α} {feed : Feed} {L M : Language TokenKind}

/-- What was taken off begins a row of the language, also together with a token that the error
names, and the error lies at the token behind it. -/
def FailsIn (reply : Reply α) (feed : Feed) (L : Language TokenKind) : Prop :=
  ∀ m rest, reply = .error (.misplaced m) rest → ∃ ks, feed.Reads ks rest ∧
    rest.front? = some m.found ∧ Begins L ks ∧
    m.expected.AllowedBy fun k => Begins L (ks ++ [k])

/-- A result was read from a row of the language, and an error is one of the language. -/
structure Follows (reply : Reply α) (feed : Feed) (L : Language TokenKind) : Prop where
  reads : ∀ a rest, reply = .ok a rest → ∃ ks ∈ L, feed.Reads ks rest
  fails : reply.FailsIn feed L

private theorem FailsIn.mono (h : reply.FailsIn feed L) (hle : ∀ ks ∈ L, ks ∈ M) :
    reply.FailsIn feed M := by
  intro m rest hm
  obtain ⟨ks, hreads, hfront, hbegins, hallowed⟩ := h m rest hm
  exact ⟨ks, hreads, hfront, hbegins.mono hle, hallowed.mono fun _ hk => hk.mono hle⟩

private theorem Follows.mono (h : reply.Follows feed L) (hle : ∀ ks ∈ L, ks ∈ M) :
    reply.Follows feed M := by
  refine ⟨?_, h.fails.mono hle⟩
  intro a rest ha
  obtain ⟨ks, hks, hreads⟩ := h.reads a rest ha
  exact ⟨ks, hle ks hks, hreads⟩

private theorem follows_ok {a : α} (h : [] ∈ L) : (Reply.ok a feed).Follows feed L where
  reads := by
    rintro _ _ ⟨⟩
    exact ⟨[], h, Feed.reads_nil.mpr rfl⟩
  fails := by
    rintro _ _ ⟨⟩

private theorem follows_lexical {e : LexError} :
    (Reply.error (.lexical e) feed : Reply α).Follows feed L where
  reads := by
    rintro _ _ ⟨⟩
  fails := by
    rintro _ _ ⟨⟩

private theorem Follows.cons {t : Token} {ts : List Token} {ending : Ending} (ht : [t.kind] ∈ M)
    (h : reply.Follows ⟨ts, ending⟩ L) : reply.Follows ⟨t :: ts, ending⟩ (M * L) := by
  have hopen : Feed.Reads ⟨t :: ts, ending⟩ [t.kind] ⟨ts, ending⟩ := ⟨[t], rfl, rfl, rfl⟩
  constructor
  · intro a rest ha
    obtain ⟨ks, hks, hreads⟩ := h.reads a rest ha
    exact ⟨_, Language.append_mem_mul ht hks, Feed.reads_append.mpr ⟨_, hopen, hreads⟩⟩
  · intro m rest hm
    obtain ⟨ks, hreads, hfront, hbegins, hallowed⟩ := h.fails m rest hm
    exact ⟨[t.kind] ++ ks, Feed.reads_append.mpr ⟨_, hopen, hreads⟩, hfront, hbegins.mul_left ht,
      hallowed.mono fun k hk => hk.mul_left ht⟩

end Reply

namespace Parse

open Sentences

variable {α β γ : Type} {L M : Language TokenKind} {feed : Feed} {rules : List Rule}

/-- On every feed a step reads rows of the language or fails in it. -/
def Follows (p : Parse α) (L : Language TokenKind) : Prop :=
  ∀ feed, (p.run feed).Follows feed L

private theorem fails_bind {p : Parse α} {g : α → Parse β} (hp : (p.run feed).Follows feed L)
    (hM : Begins M []) (hg : ∀ a rest, p.run feed = .ok a rest → ((g a).run rest).FailsIn rest M) :
    ((p >>= g).run feed).FailsIn feed (L * M) := by
  intro m rest hm
  rw [run_bind] at hm
  cases hrun : p.run feed with
  | ok a mid =>
    rw [hrun] at hm hp
    obtain ⟨ks, hks, hreads⟩ := hp.reads a mid rfl
    obtain ⟨ks', hreads', hfront, hbegins, hallowed⟩ := hg a mid hrun m rest hm
    refine ⟨ks ++ ks', Feed.reads_append.mpr ⟨mid, hreads, hreads'⟩, hfront, hbegins.mul_left hks,
      hallowed.mono ?_⟩
    intro k hk
    rw [List.append_assoc]
    exact hk.mul_left hks
  | error e mid =>
    rw [hrun] at hm hp
    cases hm
    obtain ⟨ks, hreads, hfront, hbegins, hallowed⟩ := hp.fails m rest rfl
    exact ⟨ks, hreads, hfront, hbegins.mul_right hM, hallowed.mono fun _ hk => hk.mul_right hM⟩

private theorem follows_bind {p : Parse α} {g : α → Parse β} (hp : (p.run feed).Follows feed L)
    (hM : Begins M []) (hg : ∀ a rest, p.run feed = .ok a rest → ((g a).run rest).Follows rest M) :
    ((p >>= g).run feed).Follows feed (L * M) where
  reads := by
    intro b rest hb
    obtain ⟨a, mid, ha, hb⟩ := run_bind_eq_ok.mp hb
    obtain ⟨ks, hks, hreads⟩ := hp.reads a mid ha
    obtain ⟨ks', hks', hreads'⟩ := (hg a mid ha).reads b rest hb
    exact ⟨ks ++ ks', Language.append_mem_mul hks hks',
      Feed.reads_append.mpr ⟨mid, hreads, hreads'⟩⟩
  fails := fails_bind hp hM fun a rest ha => (hg a rest ha).fails

private theorem fails_map {p : Parse α} {f : α → β} (hp : (p.run feed).FailsIn feed L) :
    ((p >>= fun a => pure (f a)).run feed).FailsIn feed L := by
  intro m rest hm
  apply hp
  rw [run_bind] at hm
  cases hrun : p.run feed with
  | ok a mid =>
    rw [hrun] at hm
    cases hm
  | error e mid =>
    rw [hrun] at hm
    cases hm
    rfl

private theorem Follows.bind {p : Parse α} {g : α → Parse β} (hp : p.Follows L) (hM : Begins M [])
    (hg : ∀ a, (g a).Follows M) : (p >>= g).Follows (L * M) :=
  fun feed => follows_bind (hp feed) hM fun a rest _ => hg a rest

private theorem follows_pure (a : α) (h : [] ∈ L) : (pure a : Parse α).Follows L := fun _ =>
  Reply.follows_ok h

private theorem follows_map {p : Parse α} {f : α → β} (hp : (p.run feed).Follows feed L) :
    ((p >>= fun a => pure (f a)).run feed).Follows feed L := by
  have h := follows_bind hp (begins_of_mem Language.nil_mem_one) fun a rest _ =>
    follows_pure (f a) Language.nil_mem_one rest
  rwa [mul_one] at h

private theorem Follows.map {p : Parse α} {f : α → β} (hp : p.Follows L) :
    (p >>= fun a => pure (f a)).Follows L :=
  fun feed => follows_map (hp feed)

private theorem run_current_bind (g : Token → Parse β) (feed : Feed) :
    (∃ t, feed.front? = some t ∧ (current >>= g).run feed = (g t).run feed) ∨
      ∃ e, (current >>= g).run feed = .error (.lexical e) feed := by
  obtain ⟨tokens, ending⟩ := feed
  cases tokens with
  | nil =>
    cases ending with
    | finish p => exact .inl ⟨.atEnd p, rfl, rfl⟩
    | fault e => exact .inr ⟨e, rfl⟩
  | cons t ts => exact .inl ⟨t, rfl, rfl⟩

private theorem follows_current {g : Token → Parse β}
    (h : ∀ t feed, feed.front? = some t → ((g t).run feed).Follows feed L) :
    (current >>= g).Follows L := by
  intro feed
  rcases run_current_bind g feed with ⟨t, ht, hrun⟩ | ⟨e, hrun⟩
  · rw [hrun]
    exact h t feed ht
  · rw [hrun]
    exact Reply.follows_lexical

private theorem follows_advance {t : Token} (ht : feed.front? = some t)
    (hk : t.kind ≠ .endOfInput) : (advance.run feed).Follows feed (token t.kind) where
  reads := by
    intro u rest hrun
    exact ⟨[t.kind], mem_token.mpr rfl, (run_advance_kind_eq_ok ht rfl hk).mp hrun⟩
  fails := by
    rintro m rest ⟨⟩

private theorem follows_take {t : Token} {k : TokenKind} {a : α} (ht : feed.front? = some t)
    (hk : t.kind = k) (hne : k ≠ .endOfInput) (hmem : [k] ∈ L) :
    ((do advance; return a : Parse α).run feed).Follows feed L := by
  subst hk
  refine (follows_map (follows_advance ht hne)).mono fun ks hks => ?_
  rwa [mem_token.mp hks]

private theorem follows_refuse {expected : Expectation} (hL : Begins L [])
    (h : expected.AllowedBy fun k => Begins L [k]) :
    (refuse rules expected : Parse α).Follows L := by
  apply follows_current
  intro t feed ht
  constructor
  · rintro a rest ⟨⟩
  · rintro m rest ⟨⟩
    exact ⟨[], Feed.reads_nil.mpr rfl, ht, hL, h⟩

private theorem fails_expect (kind : TokenKind) :
    ((expect rules kind).run feed).FailsIn feed (token kind) := by
  have hrefuse : (refuse rules (.token kind) : Parse Unit).Follows (token kind) :=
    follows_refuse (begins_token kind) (begins_of_mem (mem_token.mpr rfl))
  rw [expect]
  rcases run_current_bind (fun t => if t.kind = kind then advance else refuse rules (.token kind))
    feed with ⟨t, ht, hrun⟩ | ⟨e, hrun⟩
  · rw [hrun]
    split
    · rintro m rest ⟨⟩
    · exact (hrefuse feed).fails
  · rw [hrun]
    exact Reply.follows_lexical.fails

private theorem follows_expect_mark (m : Mark) :
    (expect rules (.mark m)).Follows (token (.mark m)) := by
  refine fun feed => ⟨?_, fails_expect _⟩
  intro u rest h
  exact ⟨_, mem_token.mpr rfl, run_expect_mark_eq_ok.mp h⟩

private theorem follows_expect_reserved (w : Reserved) :
    (expect rules (.reserved w)).Follows (token (.reserved w)) := by
  refine fun feed => ⟨?_, fails_expect _⟩
  intro u rest h
  exact ⟨_, mem_token.mpr rfl, run_expect_reserved_eq_ok.mp h⟩

private theorem follows_identifier : (identifier rules).Follows identifiers := by
  apply follows_current
  intro t feed ht
  split
  · rename_i name hk
    exact follows_take ht hk (by simp) (mem_identifiers.mpr ⟨name, rfl⟩)
  · refine follows_refuse begins_identifiers ?_ feed
    intro name
    exact begins_of_mem (mem_identifiers.mpr ⟨name, rfl⟩)

private theorem follows_many {T : Language TokenKind} {accept? : TokenKind → Option β}
    {item : β → Parse γ} (haccept : ∀ k b, accept? k = some b → [k] ∈ T)
    (hitem : ∀ b, (item b).Follows M) : (many accept? item).Follows (T * M)∗ := by
  intro feed
  induction feed using manyInduction item with
  | nil ending =>
    rw [run_many_nil]
    cases ending with
    | finish p => exact Reply.follows_ok (Language.nil_mem_kstar _)
    | fault e => exact Reply.follows_lexical
  | cons t ts ending ih =>
    rw [run_many_cons]
    split
    · exact Reply.follows_ok (Language.nil_mem_kstar _)
    · rename_i b hb
      have hrest : ((do
          let c ← item b
          let cs ← many accept? item
          return c :: cs).run ⟨ts, ending⟩).Follows ⟨ts, ending⟩ (M * (T * M)∗) :=
        follows_bind (hitem b _) begins_kstar fun c rest hc => follows_map (ih b c rest hc)
      have hle : T * M * (T * M)∗ ≤ (T * M)∗ := mul_kstar_le_kstar
      rw [mul_assoc] at hle
      exact (Reply.Follows.cons (haccept _ b hb) hrest).mono fun ks hks => hle hks

private theorem follows_many_only {k : TokenKind} {p : Parse γ} (h : p.Follows M) :
    (many (only k) fun _ => p).Follows (token k * M)∗ := by
  refine follows_many ?_ fun _ => h
  intro k' _ hk'
  obtain rfl : k' = k := by simpa [only] using hk'
  exact mem_token.mpr rfl

section Expressions

private theorem follows_chain {op? : TokenKind → Option BinaryOp} {operand : Parse Expr}
    {T : Language TokenKind} (hop : ∀ k b, op? k = some b → [k] ∈ T) (h : operand.Follows L) :
    (chain op? operand).Follows (L * (T * L)∗) :=
  h.bind begins_kstar fun _ => (follows_many hop fun _ => h.map).map

private theorem follows_sumOf {p : Parse Expr} (h : p.Follows Rule.factor.sentences) :
    (sumOf p).Follows Rule.expr.sentences := by
  have hterm : (chain productOp? p).Follows Rule.term.sentences := by
    rw [term_eq]
    refine follows_chain ?_ h
    intro k b hb
    obtain ⟨o, rfl, -⟩ := productOp?_eq_some_iff.mp hb
    exact ⟨o, rfl⟩
  rw [expr_eq]
  refine follows_chain ?_ hterm
  intro k b hb
  obtain ⟨o, rfl, -⟩ := sumOp?_eq_some_iff.mp hb
  exact ⟨o, rfl⟩

private theorem mem_atoms_of_atom? {k : TokenKind} {e : Expr} (h : atom? k = some e) :
    [k] ∈ atoms := by
  unfold atom? at h
  split at h
  · exact .inl ⟨_, rfl⟩
  · exact .inr (.inl ⟨_, rfl⟩)
  · exact .inr (.inr ⟨_, rfl⟩)
  · cases h

private theorem follows_factor (rules : List Rule) :
    (factor rules).Follows Rule.factor.sentences := by
  -- By induction on how many more rules may be open; below the last one only depth is at fault.
  induction rules using Rule.nestingInduction with
  | step rules ih =>
    rw [factor]
    split
    · rename_i hn
      have hsigned := ih hn (.factor :: rules) (by simp +arith)
      have hinner := ih hn (.factor :: .term :: .expr :: rules) (by simp +arith)
      apply follows_current
      intro t feed ht
      split
      · rename_i op hop
        have hk : t.kind = op.token := sign?_eq_some_iff.mp hop
        have hne : t.kind ≠ .endOfInput := hk ▸ op.token_ne_endOfInput
        refine (follows_bind (follows_advance ht hne) (begins_sentences .factor)
          fun _ rest _ => hsigned.map rest).mono ?_
        rintro _ ⟨_, hop, ks, hks, rfl⟩
        rw [mem_token.mp hop, hk]
        exact factor_eq.ge (.inl (Language.append_mem_mul ⟨op, rfl⟩ hks))
      · split
        · rename_i e he
          have hmem : [t.kind] ∈ Rule.factor.sentences :=
            factor_eq.ge (.inr (.inl (mem_atoms_of_atom? he)))
          exact follows_take ht rfl (ne_endOfInput_of_atom? he) hmem
        · split
          · rename_i hk
            have hbody : (do
                let e ← sumOf (factor (.factor :: .term :: .expr :: rules))
                expect rules (.mark .rightParen)
                return e).Follows (Rule.expr.sentences * token (.mark .rightParen)) :=
              (follows_sumOf hinner).bind (begins_token _) fun _ => (follows_expect_mark _).map
            refine (follows_bind (follows_advance ht (by simp [hk])) (by simp)
              fun _ rest _ => hbody rest).mono ?_
            intro ks hks
            rw [hk] at hks
            exact factor_eq.ge (.inr (.inr hks))
          · refine follows_refuse (begins_sentences _) ?_ feed
            intro k ks hks
            exact ⟨ks, hks⟩
    · exact follows_refuse (begins_sentences _) trivial

private theorem follows_expr (rules : List Rule) : (expr rules).Follows Rule.expr.sentences :=
  follows_sumOf (follows_factor _)

end Expressions

section Statements

private theorem follows_assignment (rules : List Rule) :
    (assignment rules).Follows Rule.assignmentStatement.sentences := by
  rw [assignmentStatement_eq]
  exact follows_identifier.bind (by simp) fun _ => (follows_expect_mark _).bind (by simp) fun _ =>
    (follows_expr rules).map

private theorem follows_statement (rules : List Rule) {p : Parse (List Statement)}
    (h : p.Follows Rule.compoundStatement.sentences) :
    (statement rules p).Follows Rule.statement.sentences := by
  apply follows_current
  intro t feed ht
  split
  · exact (h.map feed).mono fun ks hks => statement_eq.ge (.inl hks)
  · exact (follows_assignment _ feed).mono fun ks hks => statement_eq.ge (.inr (.inl hks))
  · exact follows_pure _ (statement_eq.ge (.inr (.inr rfl))) feed

private theorem follows_statementList {p : Parse Statement}
    (h : p.Follows Rule.statement.sentences) :
    (statementList p).Follows Rule.statementList.sentences := by
  rw [statementList_eq]
  exact h.bind begins_kstar fun _ => (follows_many_only h).map

/-- The end of a compound names the semicolon too, for the statements that could still come. -/
private theorem follows_close (body : List Statement) :
    (do
      if (← current).kind = TokenKind.reserved .blockEnd then do
        advance
        return body
      else refuse rules (.oneOf [.mark .semicolon, .reserved .blockEnd])).Follows
      (moreStatements * token (.reserved .blockEnd)) := by
  have hend : [TokenKind.reserved .blockEnd] ∈ moreStatements * token (.reserved .blockEnd) :=
    Language.append_mem_mul (Language.nil_mem_kstar _) (mem_token.mpr rfl)
  have hnil : Begins (moreStatements * token (.reserved .blockEnd)) [] := ⟨_, hend⟩
  apply follows_current
  intro t feed ht
  split
  · rename_i hk
    exact follows_take ht hk (by simp) hend
  · refine follows_refuse hnil ?_ feed
    intro k hk
    have hle : token (.mark .semicolon) * Rule.statement.sentences ≤ moreStatements := le_kstar
    have hmore : Begins (token (.mark .semicolon) * Rule.statement.sentences) [.mark .semicolon] :=
      (begins_sentences .statement).mul_left (mem_token.mpr rfl)
    rcases List.mem_pair.mp hk with rfl | rfl
    · exact (hmore.mono fun ks hks => hle hks).mul_right (begins_token _)
    · exact begins_of_mem hend

private theorem follows_compound (rules : List Rule) :
    (compound rules).Follows Rule.compoundStatement.sentences := by
  induction rules using Rule.nestingInduction with
  | step rules ih =>
    rw [compound]
    split
    · rename_i hn
      have hinner := ih hn (.compoundStatement :: .statement :: .statementList :: rules)
        (by simp +arith)
      have hlist := follows_statementList
        (follows_statement (.statement :: .statementList :: rules) hinner)
      -- The statements are left open, so that the step behind them can name the semicolon.
      rw [compoundStatement_eq, ← statementList_mul_moreStatements, mul_assoc]
      exact (follows_expect_reserved _).bind (by simp [moreStatements]) fun _ =>
        hlist.bind (by simp [moreStatements]) follows_close
    · exact follows_refuse (begins_sentences _) trivial

end Statements

section Declarations

private theorem follows_typeSpec : (typeSpec rules).Follows Rule.typeSpec.sentences := by
  have hinteger : [.reserved .integer] ∈ Rule.typeSpec.sentences := typeSpec_eq.ge (.inl ⟨(), rfl⟩)
  have hreal : [.reserved .real] ∈ Rule.typeSpec.sentences := typeSpec_eq.ge (.inr ⟨(), rfl⟩)
  apply follows_current
  intro t feed ht
  split
  · rename_i hk
    exact follows_take ht hk (by simp) hinteger
  · rename_i hk
    exact follows_take ht hk (by simp) hreal
  · refine follows_refuse (begins_sentences _) ?_ feed
    intro k hk
    rcases List.mem_pair.mp hk with rfl | rfl
    · exact begins_of_mem hinteger
    · exact begins_of_mem hreal

private theorem follows_varsAfter (first : String) : (varsAfter rules first).Follows varTail :=
  (follows_many_only follows_identifier).bind (by simp) fun _ =>
    (follows_expect_mark _).bind (by simp) fun _ => follows_typeSpec.bind (by simp) fun _ =>
      (follows_expect_mark _).map

private theorem follows_varGroup : (varGroup rules).Follows (varLine * varLine∗) := by
  rw [varLine_eq, mul_assoc]
  refine follows_identifier.bind (by simp [varTail]) fun name =>
    (follows_varsAfter name).bind begins_kstar fun _ =>
      (follows_many ?_ follows_varsAfter).map
  intro k name hk
  unfold name? at hk
  split at hk
  · exact mem_identifiers.mpr ⟨_, rfl⟩
  · cases hk

private theorem follows_block {p : Parse (List Declaration)}
    (h : p.Follows Rule.procedureDeclaration.sentences∗) :
    (block rules p).Follows Rule.block.sentences := by
  rw [block_eq, declarations_eq, mul_assoc]
  exact (follows_many_only follows_varGroup).bind (by simp) fun _ => h.bind (by simp) fun _ =>
    (follows_compound _).map

private theorem follows_procedures (rules : List Rule) :
    (procedures rules).Follows Rule.procedureDeclaration.sentences∗ := by
  induction rules using Rule.nestingInduction with
  | step rules ih =>
    rw [procedures]
    split
    · rename_i hn
      have hinner := ih hn (.procedureDeclaration :: .declarations :: .block :: rules)
        (by simp +arith)
      rw [procedureDeclaration_eq]
      refine follows_many_only (follows_identifier.bind (by simp) fun name => ?_)
      refine (follows_expect_mark _).bind (by simp) fun _ => ?_
      exact (follows_block hinner).bind (by simp) fun b => (follows_expect_mark _).map
    · apply follows_current
      intro t feed ht
      split
      · refine follows_refuse begins_kstar ?_ feed
        trivial
      · exact follows_pure _ (Language.nil_mem_kstar _) feed

/-- Where reading a program fails, what it has taken off begins a program. -/
theorem fails_program (feed : Feed) :
    (program.run feed).FailsIn feed (Rule.program.sentences * token .endOfInput) := by
  rw [program_eq]
  simp only [mul_assoc]
  refine fails_bind (follows_expect_reserved _ feed) (by simp) fun _ feed₁ _ => ?_
  refine fails_bind (follows_identifier feed₁) (by simp) fun name feed₂ _ => ?_
  refine fails_bind (follows_expect_mark _ feed₂) (by simp) fun _ feed₃ _ => ?_
  refine fails_bind (follows_block (follows_procedures _) feed₃) (by simp) fun _ feed₄ _ => ?_
  refine fails_bind (follows_expect_mark _ feed₄) (by simp) fun _ feed₅ _ => ?_
  exact fails_map (fails_expect _)

end Declarations

end Parse

end MiniPascal
