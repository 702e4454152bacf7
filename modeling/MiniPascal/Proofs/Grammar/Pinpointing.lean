import MiniPascal.Proofs.Grammar.Acceptance
import MiniPascal.Proofs.Grammar.Locality
import MiniPascal.Proofs.Grammar.Recognition
import MiniPascal.Proofs.Grammar.ViablePrefix
import MiniPascal.Proofs.Token.Placement

/-!
An error of grammar points at the first token that cannot stand where it stands. The tokens before
it begin a program and those up to it do not; what the error names could stand there. Only depth
keeps a text from being read whose tokens make up a program. `Program.rejected_at_first_impossible`
puts this together.
-/

set_option autoImplicit false
set_option relaxedAutoImplicit false

namespace MiniPascal

/-- Tokens with which a program begins, its end counted as a token. -/
def Viable (ks : List TokenKind) : Prop :=
  Begins (Rule.program.sentences * Sentences.token .endOfInput) ks

/-- What an error says behind the given tokens is right. -/
structure Misplaced.Pinpoints (m : Misplaced) (before : List TokenKind) : Prop where
  begun : Viable before
  impossible : m.expected ≠ .shallower → ¬ Viable (before ++ [m.found.kind])
  named : m.expected.AllowedBy fun k => Viable (before ++ [k])

private theorem Derivation.endOfInput_not_mem_yield {r : Rule} (d : Derivation r) :
    .endOfInput ∉ d.yield := by
  induction d with
  | declarations groups procedures hfirst hothers hprocedures =>
    rw [yield]
    simp only [List.mem_append, List.mem_flatMap, List.mem_cons, not_or, not_exists, not_and]
    refine ⟨fun g hg => ⟨by simp, ⟨hfirst g hg, by simp⟩, fun d hd => ?_⟩, hprocedures⟩
    exact ⟨hothers g hg d hd, by simp⟩
  | expr first others hfirst hothers =>
    rw [yield]
    simp only [List.mem_append, List.mem_flatMap, List.mem_cons, not_or, not_exists, not_and]
    exact ⟨hfirst, fun o ho => ⟨o.1.token_ne_endOfInput.symm, hothers o ho⟩⟩
  | term first others hfirst hothers =>
    rw [yield]
    simp only [List.mem_append, List.mem_flatMap, List.mem_cons, not_or, not_exists, not_and]
    exact ⟨hfirst, fun o ho => ⟨o.1.token_ne_endOfInput.symm, hothers o ho⟩⟩
  | signed op operand hoperand =>
    rw [yield, List.mem_cons, not_or]
    exact ⟨op.token_ne_endOfInput.symm, hoperand⟩
  | _ =>
    rw [yield]
    simp_all

namespace Viable

private theorem exists_sentence {ks : List TokenKind} {k : TokenKind} (h : Viable (ks ++ [k])) :
    (k = .endOfInput ∧ ks ∈ Rule.program.sentences) ∨
      ∃ tail, ks ++ k :: tail ∈ Rule.program.sentences := by
  obtain ⟨tail, s, hs, e, he, heq⟩ := h
  rw [Sentences.mem_token.mp he, List.append_assoc, List.singleton_append] at heq
  rcases tail.eq_nil_or_concat with rfl | ⟨tail, last, rfl⟩
  · obtain ⟨rfl, hk⟩ := List.append_inj' heq rfl
    cases hk
    exact .inl ⟨rfl, hs⟩
  · rw [List.concat_eq_append, ← List.cons_append, ← List.append_assoc] at heq
    obtain ⟨rfl, -⟩ := List.append_inj' heq rfl
    exact .inr ⟨tail, hs⟩

end Viable

namespace Parse

variable {feed rest : Feed} {m : Misplaced} {ks : List TokenKind}

private theorem shallower_of_run_error {q : Position} (hks : ks ∈ Rule.program.sentences)
    (hreads : feed.Reads ks ⟨[], .finish q⟩)
    (h : program.run feed = .error (.misplaced m) rest) : m.expected = .shallower := by
  rcases settles_program hks hreads with ⟨p, hp⟩ | ⟨m', rest', hm, hdeep⟩
  · rw [h] at hp
    cases hp
  · rw [h] at hm
    cases hm
    exact hdeep

private theorem shallower_of_sentence {t : Token} {us : List Token} {ending : Ending}
    {tail : List TokenKind} (hsentence : ks ++ t.kind :: tail ∈ Rule.program.sentences)
    (hreads : feed.Reads ks ⟨t :: us, ending⟩)
    (h : program.run feed = .error (.misplaced m) ⟨t :: us, ending⟩) :
    m.expected = .shallower := by
  obtain ⟨ts, htokens, hkinds, hending⟩ := hreads
  -- Another text that goes on from the token at fault as the sentence does.
  let fork : Fork := ⟨t, ⟨us, ending⟩, ⟨tail.map (⟨·, "", .point .start⟩), .finish .start⟩⟩
  have hone : feed = fork.one ts := by
    obtain ⟨tokens, ending'⟩ := feed
    obtain rfl : tokens = ts ++ t :: us := htokens
    obtain rfl : ending = ending' := hending
    rfl
  have hother : (fork.other ts).Reads (ks ++ t.kind :: tail) ⟨[], .finish .start⟩ := by
    refine ⟨ts ++ t :: tail.map (⟨·, "", .point .start⟩), by simp [fork, Fork.other], ?_, rfl⟩
    simp [hkinds, Function.comp_def]
  rw [hone] at h
  have hrun : program.run (fork.other ts) = .error (.misplaced m) (fork.other []) :=
    local_program.run_error h
  exact shallower_of_run_error hsentence hother hrun

private theorem not_viable_of_run_error (hends : ∀ t ∈ feed.tokens, t.kind ≠ .endOfInput)
    (h : program.run feed = .error (.misplaced m) rest) (hreads : feed.Reads ks rest)
    (hfront : rest.front? = some m.found) (hdeep : m.expected ≠ .shallower) :
    ¬ Viable (ks ++ [m.found.kind]) := by
  intro hviable
  have hcases := hviable.exists_sentence
  apply hdeep
  obtain ⟨tokens, ending⟩ := rest
  cases tokens with
  | nil =>
    cases ending with
    | fault e => cases hfront
    | finish p =>
      have hfound : Token.atEnd p = m.found := Option.some.inj hfront
      rw [← hfound] at hcases
      rcases hcases with ⟨-, hks⟩ | ⟨tail, d, hd⟩
      · exact shallower_of_run_error hks hreads h
      · refine absurd ?_ d.endOfInput_not_mem_yield
        rw [hd]
        exact List.mem_append_right _ List.mem_cons_self
  | cons t us =>
    have hfound : t = m.found := Option.some.inj hfront
    rw [← hfound] at hcases
    rcases hcases with ⟨hk, -⟩ | ⟨tail, hsentence⟩
    · obtain ⟨ts, htokens, -, -⟩ := hreads
      refine absurd hk (hends t ?_)
      rw [htokens]
      exact List.mem_append_right _ List.mem_cons_self
    · exact shallower_of_sentence hsentence hreads h

end Parse

namespace Feed

variable {feed rest : Feed} {ks : List TokenKind}

private theorem row_of_reads (h : feed.Reads ks rest) :
    ∃ ts, feed.row = ts ++ rest.row ∧ ts.map Token.kind = ks := by
  obtain ⟨ts, htokens, hkinds, hending⟩ := h
  refine ⟨ts, ?_, hkinds⟩
  rw [row, row, hending, htokens]
  cases feed.ending with
  | finish p => exact List.append_assoc ts rest.tokens _
  | fault e => rfl

private theorem row_of_front {t : Token} (h : feed.front? = some t) : ∃ ts, feed.row = t :: ts := by
  obtain ⟨tokens, ending⟩ := feed
  cases tokens with
  | nil =>
    cases ending with
    | finish p =>
      cases h
      exact ⟨[], rfl⟩
    | fault e => cases h
  | cons u us =>
    cases h
    cases ending with
    | finish p => exact ⟨us ++ [.atEnd p], rfl⟩
    | fault e => exact ⟨us, rfl⟩

end Feed

private theorem Ordered.eq_of_getElem? {tokens : List Token} (h : Ordered tokens) {t : Token}
    {i j : Nat} (hi : tokens[i]? = some t) (hj : tokens[j]? = some t) : i = j := by
  obtain ⟨hi, hti⟩ := List.getElem?_eq_some_iff.mp hi
  obtain ⟨hj, htj⟩ := List.getElem?_eq_some_iff.mp hj
  have apart := List.pairwise_iff_getElem.mp h.apart
  rcases Nat.lt_trichotomy i j with hlt | heq | hlt
  · have hspan := (apart i j hi hj hlt).1
    rw [hti, htj] at hspan
    exact absurd hspan (Position.lt_irrefl _)
  · exact heq
  · have hspan := (apart j i hj hi hlt).1
    rw [hti, htj] at hspan
    exact absurd hspan (Position.lt_irrefl _)

namespace Program

/-- A text is rejected at its first token that is impossible there, with what is possible there. One
whose tokens make up a program is read, or else rejected for its depth. -/
theorem rejected_at_first_impossible (source : String) :
    (∀ m, ofString source = .error (.misplaced m) →
      ∃ k, (∀ j, (Feed.ofString source).row[j]? = some m.found ↔ j = k) ∧
        m.Pinpoints (((Feed.ofString source).row.take k).map Token.kind)) ∧
    ∀ d : Derivation .program, d.Derives source → (∃ p, ofString source = .ok p) ∨
      ∃ m, ofString source = .error (.misplaced m) ∧ m.expected = .shallower := by
  constructor
  · intro m hm
    obtain ⟨rest, hrun⟩ := ofString_eq_error_iff.mp hm
    obtain ⟨ks, hreads, hfront, hbegun, hnamed⟩ := Parse.fails_program _ m rest hrun
    obtain ⟨ts, hrow, hkinds⟩ := Feed.row_of_reads hreads
    obtain ⟨us, hus⟩ := Feed.row_of_front hfront
    rw [hus] at hrow
    have hat : (Feed.ofString source).row[ts.length]? = some m.found := by
      rw [hrow]
      simp
    refine ⟨ts.length, fun j => ⟨fun hj => ?_, fun hj => hj ▸ hat⟩, ?_⟩
    · exact (Feed.ordered_row source).eq_of_getElem? hj hat
    · rw [hrow, List.take_left, hkinds]
      have hends := Feed.kind_ne_endOfInput_of_mem (.ofString source)
      exact ⟨hbegun, Parse.not_viable_of_run_error hends hrun hreads hfront, hnamed⟩
  · rintro d hd
    obtain ⟨q, hreads⟩ := Feed.exists_all_iff_reads.mp hd
    rcases Parse.settles_program ⟨d, rfl⟩ hreads with ⟨p, hp⟩ | ⟨m, rest, hm, hdeep⟩
    · refine .inl ⟨p, ?_⟩
      change (Parse.program.run (Feed.ofString source)).toExcept = .ok p
      rw [hp]
      rfl
    · exact .inr ⟨m, ofString_eq_error_iff.mpr ⟨rest, hm⟩, hdeep⟩

/-- Behind `PROGRAM` no program goes on with a semicolon, and any name could stand there. -/
theorem semicolon_for_name :
    (∃ m, ofString "PROGRAM;" = .error (.misplaced m) ∧ m.found.kind = .mark .semicolon) ∧
      Viable [.reserved .program] ∧ ¬ Viable [.reserved .program, .mark .semicolon] ∧
      ∀ name, Viable [.reserved .program, .identifier name] := by
  let word : Token := ⟨.reserved .program, "PROGRAM", ⟨⟨1, 1⟩, ⟨1, 8⟩⟩⟩
  let semicolon : Token := ⟨.mark .semicolon, ";", ⟨⟨1, 8⟩, ⟨1, 9⟩⟩⟩
  have hfeed : Feed.ofString "PROGRAM;" = ⟨[word, semicolon], .finish ⟨1, 9⟩⟩ := by decide +kernel
  have hrun : ofString "PROGRAM;" = .error (.misplaced ⟨.identifier, semicolon, [.program]⟩) := by
    refine ofString_eq_error_iff.mpr ⟨⟨[semicolon], .finish ⟨1, 9⟩⟩, ?_⟩
    rw [hfeed]
    rfl
  obtain ⟨k, hk, hpinpoints⟩ := (rejected_at_first_impossible "PROGRAM;").1 _ hrun
  obtain rfl : 1 = k := (hk 1).mp (by rw [hfeed]; rfl)
  rw [hfeed] at hpinpoints
  exact ⟨⟨_, hrun, rfl⟩, hpinpoints.begun, hpinpoints.impossible (by decide), hpinpoints.named⟩

end Program

end MiniPascal
