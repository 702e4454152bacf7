import MiniPascal.Proofs.Grammar.ProgramReading
import MiniPascal.Proofs.Grammar.Unambiguous

/-!
Whole texts. A text is read as a program exactly if its tokens have a derivation that is not too
deep, and then the result is the tree of the derivation; `ofString_eq_ok_iff_derives` puts this
together for programs and expressions.
-/

set_option autoImplicit false
set_option relaxedAutoImplicit false

namespace MiniPascal

namespace Feed

theorem kind_ne_endOfInput_of_mem (s : Scanner) :
    ∀ t ∈ (ofScanner s).tokens, t.kind ≠ .endOfInput := by
  induction hn : s.rest.length using Nat.strongRecOn generalizing s with
  | _ n ih =>
    rw [ofScanner.eq_def]
    split
    · exact List.forall_mem_nil _
    · rename_i t after h
      split
      · exact List.forall_mem_nil _
      · rename_i ht
        have shorter := Scanner.length_lt_of_next h ht
        exact List.forall_mem_cons.mpr ⟨ht, ih _ (hn ▸ shorter) after rfl⟩

private theorem Reads.forall_mem {feed rest : Feed} {ks : List TokenKind} {P : Token → Prop}
    (h : feed.Reads ks rest) (hP : ∀ t ∈ feed.tokens, P t) : ∀ t ∈ rest.tokens, P t := by
  obtain ⟨ts, hts, -, -⟩ := h
  intro t ht
  exact hP t (hts ▸ List.mem_append_right ts ht)

theorem exists_all_iff_reads {feed : Feed} {ks : List TokenKind} :
    (∃ ts, feed.all = .ok ts ∧ ts.map Token.kind = ks ++ [.endOfInput]) ↔
      ∃ p, feed.Reads ks ⟨[], .finish p⟩ := by
  obtain ⟨tokens, ending⟩ := feed
  cases ending with
  | fault e => simp [all, Reads]
  | finish p =>
    simp only [all, Reads, Except.ok.injEq, exists_eq_left', List.append_nil, Ending.finish.injEq]
    simp [Token.atEnd]

end Feed

namespace Parse

variable {feed rest : Feed}

private theorem run_expect_endOfInput_eq_ok (rules : List Rule)
    (h : ∀ t ∈ feed.tokens, t.kind ≠ .endOfInput) {u : Unit} :
    (expect rules .endOfInput).run feed = .ok u rest ↔
      rest = feed ∧ ∃ p, feed = ⟨[], .finish p⟩ := by
  simp only [expect, run_bind_eq_ok, run_current_eq_ok]
  constructor
  · rintro ⟨t, mid, ⟨ht, rfl⟩, hrun⟩
    split at hrun
    · rename_i hk
      obtain ⟨tokens, ending⟩ := feed
      cases tokens with
      | nil =>
        cases ending with
        | finish p => exact ⟨run_advance_eq_ok.mp hrun, p, rfl⟩
        | fault e => cases ht
      | cons u us =>
        obtain rfl : u = t := by simpa [Feed.front?] using ht
        exact absurd hk (h u List.mem_cons_self)
    · exact absurd hrun run_refuse_ne_ok
  · rintro ⟨rfl, p, rfl⟩
    exact ⟨.atEnd p, _, ⟨rfl, rfl⟩, rfl⟩

theorem run_program_eq_ok (h : ∀ t ∈ feed.tokens, t.kind ≠ .endOfInput) {p : Program} :
    program.run feed = .ok p rest ↔
      ∃ d : Derivation .program, d.Within 1 ∧ d.tree = p ∧ feed.Reads d.yield rest ∧
        ∃ q, rest = ⟨[], .finish q⟩ := by
  have hblock := block_below_readBy [.block, .program]
  simp only [program, run_bind_eq_ok, run_pure_eq_ok, run_identifier_eq_ok,
    run_expect_reserved_eq_ok, run_expect_mark_eq_ok]
  constructor
  · rintro ⟨_, mid₁, hprogram, name, mid₂, hname, _, mid₃, hsemi, body, mid₄, hbody, _, mid₅, hdot,
      _, _, hend, rfl, rfl⟩
    obtain ⟨d, hd, rfl, hreads⟩ := hblock.sound _ _ _ hbody
    have hclosed : mid₃.Reads (d.yield ++ [.mark .dot]) mid₅ :=
      Feed.reads_append.mpr ⟨mid₄, hreads, hdot⟩
    have hnamed :
        mid₁.Reads (.identifier name :: .mark .semicolon :: (d.yield ++ [.mark .dot])) mid₅ :=
      Feed.reads_cons.mpr ⟨mid₂, hname, Feed.reads_cons.mpr ⟨mid₃, hsemi, hclosed⟩⟩
    have hall : feed.Reads (Derivation.program name d).yield mid₅ := by
      rw [Derivation.yield, Feed.reads_cons]
      exact ⟨mid₁, hprogram, hnamed⟩
    obtain ⟨rfl, hq⟩ := (run_expect_endOfInput_eq_ok _ (hall.forall_mem h)).mp hend
    exact ⟨.program name d, Derivation.within_program.mpr hd, by rw [Derivation.tree], hall, hq⟩
  · rintro ⟨d, hd, rfl, hall, hq⟩
    have hend : (expect [.program] .endOfInput).run rest = .ok () rest :=
      (run_expect_endOfInput_eq_ok [.program] (hall.forall_mem h)).mpr ⟨rfl, hq⟩
    cases d with
    | program name body =>
      rw [Derivation.yield] at hall
      obtain ⟨mid₁, hprogram, hall⟩ := Feed.reads_cons.mp hall
      obtain ⟨mid₂, hname, hall⟩ := Feed.reads_cons.mp hall
      obtain ⟨mid₃, hsemi, hall⟩ := Feed.reads_cons.mp hall
      obtain ⟨mid₄, hreads, hdot⟩ := Feed.reads_append.mp hall
      have hfits := Derivation.within_program.mp hd
      have hrun := hblock.complete body hfits mid₃ mid₄ hreads (hdot.stops rfl)
      refine ⟨(), mid₁, hprogram, name, mid₂, hname, (), mid₃, hsemi, _, mid₄, hrun, (), rest, hdot,
        (), rest, hend, ?_, rfl⟩
      rw [Derivation.tree]

theorem run_loneExpr_eq_ok (h : ∀ t ∈ feed.tokens, t.kind ≠ .endOfInput) {e : Expr} :
    loneExpr.run feed = .ok e rest ↔
      ∃ d : Derivation .expr, d.Within 1 ∧ d.tree = e ∧ feed.Reads d.yield rest ∧
        ∃ q, rest = ⟨[], .finish q⟩ := by
  have hexpr := expr_readBy []
  simp only [loneExpr, run_bind_eq_ok, run_pure_eq_ok]
  constructor
  · rintro ⟨_, mid, he, _, _, hend, rfl, rfl⟩
    obtain ⟨d, hd, rfl, hreads⟩ := hexpr.sound _ _ _ he
    obtain ⟨rfl, hq⟩ := (run_expect_endOfInput_eq_ok _ (hreads.forall_mem h)).mp hend
    exact ⟨d, hd, rfl, hreads, hq⟩
  · rintro ⟨d, hd, rfl, hreads, q, rfl⟩
    have hend : (expect [] .endOfInput).run ⟨[], .finish q⟩ = .ok () ⟨[], .finish q⟩ :=
      (run_expect_endOfInput_eq_ok [] (hreads.forall_mem h)).mpr ⟨rfl, q, rfl⟩
    have hstop : Feed.Stops ⟨[], .finish q⟩ Rule.expr.goesOn := ⟨.atEnd q, rfl, rfl⟩
    have hrun := hexpr.complete d hd feed _ hreads hstop
    exact ⟨_, _, hrun, (), _, hend, rfl, rfl⟩

end Parse

private theorem toExcept_eq_ok {α : Type} {reply : Reply α} {a : α} :
    reply.toExcept = .ok a ↔ ∃ rest, reply = .ok a rest := by
  cases reply <;> simp [Reply.toExcept]

private theorem Reply.toExcept_eq_error_iff {α : Type} {reply : Reply α} {e : ParseError} :
    reply.toExcept = .error e ↔ ∃ rest, reply = .error e rest := by
  cases reply <;> simp [Reply.toExcept]

theorem Program.ofString_eq_error_iff {source : String} {e : ParseError} :
    Program.ofString source = .error e ↔
      ∃ rest, Parse.program.run (Feed.ofString source) = .error e rest :=
  Reply.toExcept_eq_error_iff

theorem Expr.ofString_eq_error_iff {source : String} {e : ParseError} :
    Expr.ofString source = .error e ↔
      ∃ rest, Parse.loneExpr.run (Feed.ofString source) = .error e rest :=
  Reply.toExcept_eq_error_iff

/-- The tokens of a text are what a derivation yields, the end of the text aside. -/
def Derivation.Derives {r : Rule} (d : Derivation r) (source : String) : Prop :=
  ∃ ts, (Feed.ofString source).all = .ok ts ∧ ts.map Token.kind = d.yield ++ [.endOfInput]

theorem Derivation.Derives.eq {r : Rule} {d d' : Derivation r} {source : String}
    (h : d.Derives source) (h' : d'.Derives source) : d = d' := by
  obtain ⟨ts, hts, hkinds⟩ := h
  obtain ⟨ts', hts', hkinds'⟩ := h'
  obtain rfl : ts = ts' := Except.ok.inj (hts.symm.trans hts')
  exact eq_of_yield_eq (List.append_cancel_right (hkinds.symm.trans hkinds'))

theorem Program.ofString_eq_ok_iff {source : String} {p : Program} :
    Program.ofString source = .ok p ↔
      ∃ d : Derivation .program, d.Within 1 ∧ d.tree = p ∧ d.Derives source := by
  have hrun := @Parse.run_program_eq_ok (Feed.ofString source)
  simp only [Program.ofString, Program.ofScanner, toExcept_eq_ok, Derivation.Derives,
    Feed.exists_all_iff_reads]
  constructor
  · rintro ⟨rest, h⟩
    obtain ⟨d, hd, rfl, hreads, q, rfl⟩ := (hrun (Feed.kind_ne_endOfInput_of_mem _)).mp h
    exact ⟨d, hd, rfl, q, hreads⟩
  · rintro ⟨d, hd, rfl, q, hreads⟩
    exact ⟨_, (hrun (Feed.kind_ne_endOfInput_of_mem _)).mpr ⟨d, hd, rfl, hreads, q, rfl⟩⟩

theorem Expr.ofString_eq_ok_iff {source : String} {e : Expr} :
    Expr.ofString source = .ok e ↔
      ∃ d : Derivation .expr, d.Within 1 ∧ d.tree = e ∧ d.Derives source := by
  have hrun := @Parse.run_loneExpr_eq_ok (Feed.ofString source)
  simp only [Expr.ofString, toExcept_eq_ok, Derivation.Derives, Feed.exists_all_iff_reads]
  constructor
  · rintro ⟨rest, h⟩
    obtain ⟨d, hd, rfl, hreads, q, rfl⟩ := (hrun (Feed.kind_ne_endOfInput_of_mem _)).mp h
    exact ⟨d, hd, rfl, q, hreads⟩
  · rintro ⟨d, hd, rfl, q, hreads⟩
    exact ⟨_, (hrun (Feed.kind_ne_endOfInput_of_mem _)).mpr ⟨d, hd, rfl, hreads, q, rfl⟩⟩

/-- Reading accepts the texts that the grammar derives within the limit of depth, and gives the
tree of the one derivation there is. -/
theorem ofString_eq_ok_iff_derives :
    (∀ source p, Program.ofString source = .ok p ↔
      ∃ d : Derivation .program, d.Within 1 ∧ d.tree = p ∧ d.Derives source) ∧
    (∀ source e, Expr.ofString source = .ok e ↔
      ∃ d : Derivation .expr, d.Within 1 ∧ d.tree = e ∧ d.Derives source) ∧
    ∀ (source : String) (r : Rule) (d d' : Derivation r),
      d.Derives source → d'.Derives source → d = d' := by
  refine ⟨?_, ?_, ?_⟩
  · intro source p
    exact Program.ofString_eq_ok_iff
  · intro source e
    exact Expr.ofString_eq_ok_iff
  · intro source r d d' h h'
    exact h.eq h'

end MiniPascal
