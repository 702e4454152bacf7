import MiniPascal.Proofs.Source.Place
import MiniPascal.Proofs.Token.Offer
import MiniPascal.Token.Feed

/-!
The lexical grammar as a relation between a text and its tokens: blanks and comments are passed
over, the longest offer is taken, and so on to the end of the text or to what offends.
`all_eq_iff_tokenised` says that scanning is this relation.
-/

set_option autoImplicit false
set_option relaxedAutoImplicit false

namespace MiniPascal

/-- What stands between tokens: blanks, and comments from an opening brace to the first closing
one. -/
inductive Trivia : List Char → Prop
  | nil : Trivia []
  | blank {c : Char} {gap : List Char} (blank : Text.isBlank c = true) (rest : Trivia gap) :
      Trivia (c :: gap)
  | comment {body gap : List Char} (open_ended : '}' ∉ body) (rest : Trivia gap) :
      Trivia ('{' :: (body ++ '}' :: gap))

def Settled (text : List Char) : Prop :=
  ∀ c ∈ text.head?, Text.isBlank c = false ∧ c ≠ '{'

private theorem settled_nil : Settled [] := by
  intro c hc
  cases hc

/-- The tokens of a text that begins at a place, the end of the text included, or why there are
none. -/
inductive Tokenised : Position → List Char → Except LexError (List Token) → Prop
  | finish {p : Position} {gap : List Char} (trivia : Trivia gap) :
      Tokenised p gap (.ok [.atEnd (p.advanceOver gap)])
  | token {p : Position} {gap lexeme rest : List Char} {kind : TokenKind}
      {result : Except LexError (List Token)} (trivia : Trivia gap)
      (longest : LongestOffer (lexeme ++ rest) lexeme kind)
      (others : Tokenised (p.advanceOver (gap ++ lexeme)) rest result) :
      Tokenised p (gap ++ (lexeme ++ rest)) (result.map (⟨kind, String.ofList lexeme,
        ⟨p.advanceOver gap, p.advanceOver (gap ++ lexeme)⟩⟩ :: ·))
  | unclosedComment {p : Position} {gap body : List Char} (trivia : Trivia gap)
      (open_ended : '}' ∉ body) :
      Tokenised p (gap ++ '{' :: body) (.error (.unclosedComment
        ⟨p.advanceOver gap, p.advanceOver (gap ++ '{' :: body)⟩))
  | strayCharacter {p : Position} {gap rest : List Char} {c : Char} (trivia : Trivia gap)
      (settled : Settled (c :: rest)) (no_offer : ∀ lexeme kind, ¬ Offers (c :: rest) lexeme kind)
      (no_digit : c.isDigit = false) :
      Tokenised p (gap ++ c :: rest) (.error (.strayCharacter c (.point (p.advanceOver gap))))
  | numberOutOfRange {p : Position} {gap rest : List Char} {c : Char} {n : Numeral}
      (trivia : Trivia gap) (no_offer : ∀ lexeme kind, ¬ Offers (c :: rest) lexeme kind)
      (digit : c.isDigit = true) (run : n.Leads (c :: rest)) :
      Tokenised p (gap ++ c :: rest) (.error (.numberOutOfRange (String.ofList n.chars)
        (.point (p.advanceOver gap))))

section Skipping

variable {gap body rest : List Char}

/-- Any text is trivia up to a place where something else begins, or up to a comment without an
end. -/
private theorem exists_trivia_append (text : List Char) :
    (∃ gap rest, text = gap ++ rest ∧ Trivia gap ∧ Settled rest) ∨
      ∃ gap body, text = gap ++ '{' :: body ∧ Trivia gap ∧ '}' ∉ body := by
  induction hn : text.length using Nat.strongRecOn generalizing text with
  | _ n ih =>
    subst hn
    cases text with
    | nil => exact .inl ⟨[], [], rfl, .nil, settled_nil⟩
    | cons c cs =>
      by_cases hb : Text.isBlank c = true
      · rcases ih cs.length (by simp) cs rfl with ⟨gap, rest, rfl, hgap, hrest⟩ |
          ⟨gap, body, rfl, hgap, hbody⟩
        · exact .inl ⟨c :: gap, rest, rfl, .blank hb hgap, hrest⟩
        · exact .inr ⟨c :: gap, body, rfl, .blank hb hgap, hbody⟩
      · by_cases hc : c = '{'
        · subst hc
          by_cases hclose : '}' ∈ cs
          · obtain ⟨body, after, rfl, hbody⟩ := List.eq_append_cons_of_mem hclose
            rcases ih after.length (by simp; omega) after rfl with ⟨gap, rest, rfl, hgap, hrest⟩ |
              ⟨gap, body', rfl, hgap, hbody'⟩
            · exact .inl ⟨'{' :: (body ++ '}' :: gap), rest, by simp, .comment hbody hgap, hrest⟩
            · exact .inr ⟨'{' :: (body ++ '}' :: gap), body', by simp, .comment hbody hgap, hbody'⟩
          · exact .inr ⟨[], cs, rfl, .nil, hclose⟩
        · refine .inl ⟨[], c :: cs, rfl, .nil, ?_⟩
          rintro d hd
          obtain rfl : c = d := by simpa using hd
          exact ⟨by simpa using hb, hc⟩

private theorem skipFrom_comment (o p : Position) (open_ended : '}' ∉ body) :
    Scanner.skipFrom (some o) (body ++ '}' :: rest) p =
      Scanner.skipFrom none rest (p.advanceOver (body ++ ['}'])) := by
  induction body generalizing p with
  | nil => simp [Scanner.skipFrom]
  | cons c cs ih =>
    simp only [List.mem_cons, not_or] at open_ended
    simp only [List.cons_append, Scanner.skipFrom, if_neg (Ne.symm open_ended.1),
      ih _ open_ended.2, Position.advanceOver_cons]

private theorem skipFrom_unclosed (o p : Position) (open_ended : '}' ∉ body) :
    Scanner.skipFrom (some o) body p = .unclosed o (p.advanceOver body) := by
  induction body generalizing p with
  | nil => rfl
  | cons c cs ih =>
    simp only [List.mem_cons, not_or] at open_ended
    simp only [Scanner.skipFrom, if_neg (Ne.symm open_ended.1), ih _ open_ended.2,
      Position.advanceOver_cons]

theorem skipFrom_trivia (trivia : Trivia gap) (rest : List Char) (p : Position) :
    Scanner.skipFrom none (gap ++ rest) p = Scanner.skipFrom none rest (p.advanceOver gap) := by
  induction trivia generalizing p with
  | nil => rfl
  | @blank c gap blank _ ih =>
    have hc : c ≠ '{' := by
      rintro rfl
      exact absurd blank (by decide)
    simp only [List.cons_append, Scanner.skipFrom, if_neg hc, if_pos blank, ih,
      Position.advanceOver_cons]
  | @comment body gap open_ended _ ih =>
    simp only [List.cons_append, List.append_assoc, Scanner.skipFrom, if_true,
      skipFrom_comment _ _ open_ended, ih, Position.advanceOver_cons, Position.advanceOver_append,
      Position.advanceOver_nil]

private theorem skipFrom_settled (settled : Settled rest) (p : Position) :
    Scanner.skipFrom none rest p = .clear ⟨rest, p⟩ := by
  cases rest with
  | nil => rfl
  | cons c cs =>
    obtain ⟨hb, hc⟩ := settled c rfl
    simp [Scanner.skipFrom, hb, hc]

end Skipping

section Steps

variable {p : Position} {gap lexeme rest : List Char} {kind : TokenKind}

theorem settled_of_visible {c : Char} (h : 33 ≤ c.toNat ∧ c.toNat ≤ 122) :
    Settled (c :: rest) := by
  rintro d hd
  obtain rfl : c = d := by simpa using hd
  constructor
  · simp only [Text.isBlank, Text.blankRanges, List.any_eq_false, List.mem_cons,
      List.not_mem_nil, or_false, Bool.and_eq_true, decide_eq_true_eq]
    rintro r (rfl | rfl | rfl | rfl | rfl | rfl | rfl | rfl | rfl | rfl) <;> simp only <;> omega
  · rintro rfl
    exact absurd h.2 (by decide)

private theorem settled_of_offers {text : List Char} (h : Offers text lexeme kind) :
    Settled text := by
  obtain ⟨spells, rest, rfl, -⟩ := h
  obtain ⟨c, cs, rfl, visible⟩ := spells.visible
  exact settled_of_visible visible

private theorem next_of_settled (trivia : Trivia gap) (settled : Settled rest) :
    Scanner.next ⟨gap ++ rest, p⟩ =
      Scanner.take ⟨rest, p.advanceOver gap⟩ Recogniser.all := by
  simp only [Scanner.next, Scanner.nextBy, Scanner.skip, skipFrom_trivia trivia,
    skipFrom_settled settled]

theorem next_finish (trivia : Trivia gap) :
    Scanner.next ⟨gap, p⟩ =
      (.ok (.atEnd (p.advanceOver gap)), ⟨[], p.advanceOver gap⟩) := by
  have h := next_of_settled (p := p) trivia settled_nil
  rw [List.append_nil] at h
  exact h

theorem next_token (trivia : Trivia gap) (longest : LongestOffer (lexeme ++ rest) lexeme kind) :
    Scanner.next ⟨gap ++ (lexeme ++ rest), p⟩ =
      (.ok ⟨kind, String.ofList lexeme,
        ⟨p.advanceOver gap, p.advanceOver (gap ++ lexeme)⟩⟩,
        ⟨rest, p.advanceOver (gap ++ lexeme)⟩) := by
  rw [next_of_settled trivia (settled_of_offers longest.1)]
  have hne := longest.1.1.ne_nil
  let m : Match (lexeme ++ rest) :=
    ⟨kind, lexeme.length, List.length_pos_iff.mpr hne, by simp⟩
  have hm : Recogniser.longest (lexeme ++ rest) Recogniser.all = some m :=
    longest_eq_some_iff.mpr (by simpa [m] using longest)
  obtain ⟨c, cs, hc⟩ := List.exists_cons_of_ne_nil (List.append_ne_nil_of_left_ne_nil hne rest)
  unfold Scanner.take
  simp only
  split
  · rename_i hnil
    rw [hc] at hnil
    cases hnil
  · rw [hm]
    simp only [m, Scanner.drop, List.take_left, List.drop_left, Position.advanceOver_append,
      Span.join_point_advanceOver]

theorem next_unclosedComment {body : List Char} (trivia : Trivia gap) (open_ended : '}' ∉ body) :
    Scanner.next ⟨gap ++ '{' :: body, p⟩ =
      (.error (.unclosedComment ⟨p.advanceOver gap, p.advanceOver (gap ++ '{' :: body)⟩),
        ⟨[], p.advanceOver (gap ++ '{' :: body)⟩) := by
  have hspan := Span.join_point_advanceOver (p.advanceOver gap) ('{' :: body)
  rw [← Position.advanceOver_append] at hspan
  simp only [Scanner.next, Scanner.nextBy, Scanner.skip, skipFrom_trivia trivia, Scanner.skipFrom,
    if_true, skipFrom_unclosed _ _ open_ended, ← Position.advanceOver_cons,
    ← Position.advanceOver_append, hspan]

theorem next_offence {c : Char} (trivia : Trivia gap) (settled : Settled (c :: rest))
    (no_offer : ∀ lexeme kind, ¬ Offers (c :: rest) lexeme kind) :
    Scanner.next ⟨gap ++ c :: rest, p⟩ =
      (.error (Scanner.offence ⟨c :: rest, p.advanceOver gap⟩ c),
        ⟨c :: rest, p.advanceOver gap⟩) := by
  rw [next_of_settled trivia settled]
  unfold Scanner.take
  simp only [longest_eq_none_iff.mpr no_offer]

end Steps

namespace Feed

theorem ofScanner_eq (s : Scanner) :
    ofScanner s =
      match s.next with
      | (.error e, _) => ⟨[], .fault e⟩
      | (.ok t, after) =>
        if t.kind = .endOfInput then ⟨[], .finish t.span.start⟩
        else ⟨t :: (ofScanner after).tokens, (ofScanner after).ending⟩ := by
  rw [ofScanner.eq_def]
  split
  · rename_i h
    simp only [h]
  · rename_i h
    simp only [h]
    rfl

private theorem all_ofScanner (s : Scanner) :
    (ofScanner s).all =
      match s.next with
      | (.error e, _) => .error e
      | (.ok t, after) =>
        if t.kind = .endOfInput then .ok [.atEnd t.span.start]
        else (ofScanner after).all.map (t :: ·) := by
  rw [ofScanner_eq]
  split
  · rfl
  · rename_i t after _
    by_cases ht : t.kind = .endOfInput
    · simp only [ht, if_true, all, List.nil_append]
    · simp only [ht, if_false, all]
      cases (ofScanner after).ending <;> rfl

end Feed

namespace Tokenised

theorem all_eq {p : Position} {text : List Char} {result : Except LexError (List Token)}
    (h : Tokenised p text result) : (Feed.ofScanner ⟨text, p⟩).all = result := by
  induction h with
  | finish trivia =>
    rw [Feed.all_ofScanner, next_finish trivia]
    simp [Token.atEnd, Span.point]
  | token trivia longest _ ih =>
    rw [Feed.all_ofScanner, next_token trivia longest]
    simp only [if_neg longest.1.1.kind_ne_endOfInput, ih]
  | unclosedComment trivia open_ended =>
    rw [Feed.all_ofScanner, next_unclosedComment trivia open_ended]
  | strayCharacter trivia settled no_offer no_digit =>
    rw [Feed.all_ofScanner, next_offence trivia settled no_offer]
    simp [Scanner.offence, no_digit]
  | @numberOutOfRange p gap rest c n trivia no_offer digit run =>
    have settled : Settled (c :: rest) := settled_of_visible (visible_of_digit digit)
    rw [Feed.all_ofScanner, next_offence trivia settled no_offer]
    simp [Scanner.offence, digit, Numeral.scan_eq_of_leads run]

theorem exists_result (p : Position) (text : List Char) : ∃ result, Tokenised p text result := by
  induction hn : text.length using Nat.strongRecOn generalizing p text with
  | _ n ih =>
    subst hn
    rcases exists_trivia_append text with ⟨gap, rest, rfl, trivia, settled⟩ |
      ⟨gap, body, rfl, trivia, open_ended⟩
    · cases rest with
      | nil => exact ⟨_, by simpa using .finish trivia⟩
      | cons c cs =>
        by_cases offer : ∃ lexeme kind, Offers (c :: cs) lexeme kind
        · obtain ⟨lexeme, kind, longest⟩ := exists_longestOffer offer
          obtain ⟨spells, rest, hrest, -⟩ := longest.1
          rw [hrest] at longest ⊢
          have shorter : rest.length < (gap ++ (lexeme ++ rest)).length := by
            have := List.length_pos_iff.mpr spells.ne_nil
            simp only [List.length_append]
            omega
          obtain ⟨result, others⟩ := ih rest.length (hrest ▸ shorter)
            (p.advanceOver (gap ++ lexeme)) rest rfl
          exact ⟨_, .token trivia longest others⟩
        · have no_offer : ∀ lexeme kind, ¬ Offers (c :: cs) lexeme kind :=
            fun lexeme kind h => offer ⟨lexeme, kind, h⟩
          cases hc : c.isDigit with
          | false => exact ⟨_, .strayCharacter trivia settled no_offer hc⟩
          | true => exact ⟨_, .numberOutOfRange trivia no_offer hc (Numeral.scan_leads _)⟩
    · exact ⟨_, .unclosedComment trivia open_ended⟩

end Tokenised

/-- Scanning a text is taking the longest offer over and over: the result is the tokens with the
end of the text behind them if the whole text falls apart into trivia and longest offers, and
otherwise the first place that does not. -/
theorem all_eq_iff_tokenised (source : String) (result : Except LexError (List Token)) :
    (Feed.ofString source).all = result ↔ Tokenised .start source.toList result := by
  constructor
  · rintro rfl
    obtain ⟨result, h⟩ := Tokenised.exists_result .start source.toList
    have hall : (Feed.ofString source).all = result := h.all_eq
    rw [hall]
    exact h
  · exact Tokenised.all_eq

end MiniPascal
