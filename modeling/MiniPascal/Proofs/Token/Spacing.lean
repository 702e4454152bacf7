import MiniPascal.Proofs.Grammar.Moved
import MiniPascal.Proofs.Token.Placement

/-!
Trivia never matters. The lexemes of a text are read as the same tokens in every text that holds
them in order with some trivia between any two: `Feed.moved_ofString_of_respaced`. A lexeme is
offered in full wherever a gap or the end of the text follows it, for no gap begins with a visible
character, and only such a character could make it longer or part of another lexeme.
-/

set_option autoImplicit false
set_option relaxedAutoImplicit false

namespace MiniPascal

/-- Lexemes in a row, each with trivia behind it; only behind the last one there may be none. -/
inductive Strung : List String → List Char → Prop
  | nil : Strung [] []
  | cons {lexeme : String} {lexemes : List String} {gap rest : List Char} (trivia : Trivia gap)
      (parted : lexemes ≠ [] → gap ≠ []) (others : Strung lexemes rest) :
      Strung (lexeme :: lexemes) (lexeme.toList ++ (gap ++ rest))

/-- A text that is made of these lexemes in order and of trivia: some between any two of them, and
any before the first and after the last. -/
def Respaced (lexemes : List String) (text : List Char) : Prop :=
  ∃ gap rest, text = gap ++ rest ∧ Trivia gap ∧ Strung lexemes rest

theorem Strung.blank {lexeme : String} {lexemes : List String} {c : Char} {rest : List Char}
    (hc : Text.isBlank c = true) (others : Strung lexemes rest) :
    Strung (lexeme :: lexemes) (lexeme.toList ++ c :: rest) :=
  .cons (.blank hc .nil) (fun _ => by simp) others

private theorem strung_joined (lexemes : List String) :
    Strung lexemes (" ".intercalate (lexemes ++ [""])).toList := by
  induction lexemes with
  | nil => exact .nil
  | cons lexeme lexemes ih =>
    obtain ⟨next, others, hnext⟩ : ∃ next others, lexemes ++ [""] = next :: others :=
      List.exists_cons_of_ne_nil (by simp)
    rw [List.cons_append, hnext, String.intercalate_cons_cons, ← hnext, String.toList_append,
      String.toList_append, List.append_assoc]
    exact .blank rfl ih

/-- No visible character stands here, so no lexeme begins and none goes on. -/
def Severed (text : List Char) : Prop :=
  ∀ c ∈ text.head?, ¬ (33 ≤ c.toNat ∧ c.toNat ≤ 122)

private theorem Trivia.severed {gap : List Char} (trivia : Trivia gap) : Severed gap := by
  intro c hc visible
  have settled : Settled [c] := settled_of_visible visible
  obtain ⟨blank, brace⟩ := settled c rfl
  cases trivia with
  | nil => cases hc
  | blank h =>
    obtain rfl : _ = c := by simpa using hc
    exact absurd h (by simp [blank])
  | comment =>
    obtain rfl : '{' = c := by simpa using hc
    exact brace rfl

private theorem severed_behind {lexemes : List String} {gap rest : List Char} (trivia : Trivia gap)
    (parted : lexemes ≠ [] → gap ≠ []) (others : Strung lexemes rest) : Severed (gap ++ rest) := by
  cases gap with
  | cons c cs =>
    intro d hd
    exact trivia.severed d hd
  | nil =>
    cases others with
    | nil => exact trivia.severed
    | cons => exact absurd rfl (parted (by simp))

private theorem Spells.longestOffer {lexeme rest : List Char} {kind : TokenKind}
    (spells : Spells lexeme kind) (behind : Severed rest) :
    LongestOffer (lexeme ++ rest) lexeme kind := by
  have stops : ∀ c ∈ rest.head?, kind.grows c = false := by
    intro c hc
    cases hgrows : kind.grows c with
    | false => rfl
    | true => exact absurd (visible_of_grows hgrows) (behind c hc)
  apply longestOffer_of_offers ⟨spells, rest, rfl, stops⟩
  · intro _ c hc
    cases hdigit : c.isDigit with
    | false => rfl
    | true => exact absurd (visible_of_digit hdigit) (behind c hc)
  · rintro - c hc rfl
    exact behind _ hc (by decide)

namespace Feed

private theorem spells_of_mem (source : String) :
    ∀ t ∈ (ofString source).tokens, Spells t.lexeme.toList t.kind := by
  obtain ⟨pieces, -, -, htokens, -, hlaid, -⟩ := exists_pieces source
  rw [htokens, List.forall_mem_map]
  exact hlaid.spelled

/-- Places aside, what is scanned from lexemes strung together are the tokens of these lexemes. -/
private theorem moved_ofScanner_of_strung {ts : List Token} {gap rest : List Char}
    (strung : Strung (ts.map Token.lexeme) rest)
    (spelled : ∀ t ∈ ts, Spells t.lexeme.toList t.kind) (trivia : Trivia gap) (p : Position) :
    (ofScanner ⟨gap ++ rest, p⟩).moved .forget =
      ⟨ts.map (Token.moved .forget), .finish .start⟩ := by
  induction ts generalizing gap rest p with
  | nil =>
    cases strung
    rw [ofScanner_eq, List.append_nil, next_finish trivia]
    rfl
  | cons t ts ih =>
    obtain ⟨spells, spelled⟩ := List.forall_mem_cons.mp spelled
    cases strung with
    | cons trivia' parted others =>
      -- What stands behind this lexeme is the gap in front of the next one.
      have longest := spells.longestOffer (severed_behind trivia' parted others)
      have hothers := ih others spelled trivia' (p.advanceOver (gap ++ t.lexeme.toList))
      simp only [moved, mk.injEq] at hothers
      rw [ofScanner_eq, next_token trivia longest]
      simp only [if_neg spells.kind_ne_endOfInput, moved, List.map_cons, hothers,
        String.ofList_toList]
      rfl

theorem all_eq_ok_iff {feed : Feed} {tokens : List Token} :
    feed.all = .ok tokens ↔ ∃ p, feed.ending = .finish p ∧ feed.tokens ++ [.atEnd p] = tokens := by
  obtain ⟨tokens', ending⟩ := feed
  cases ending <;> simp [all]

theorem exists_all_of_moved {f : Position → Position} {feed feed' : Feed} {tokens : List Token}
    (h : feed'.moved f = feed.moved f) (hall : feed.all = .ok tokens) :
    ∃ tokens', feed'.all = .ok tokens' ∧ tokens'.map Token.kind = tokens.map Token.kind ∧
      tokens'.map Token.lexeme = tokens.map Token.lexeme := by
  have hmoved := congrArg all h
  rw [all_moved, all_moved, hall] at hmoved
  cases hall' : feed'.all with
  | error e =>
    rw [hall'] at hmoved
    cases hmoved
  | ok tokens' =>
    rw [hall'] at hmoved
    have htokens : tokens'.map (Token.moved f) = tokens.map (Token.moved f) := Except.ok.inj hmoved
    have hkinds := congrArg (List.map Token.kind) htokens
    have hlexemes := congrArg (List.map Token.lexeme) htokens
    rw [List.map_map, List.map_map] at hkinds hlexemes
    exact ⟨tokens', rfl, hkinds, hlexemes⟩

variable {source source' : String} {p : Position}

theorem moved_ofString_of_respaced (hfinish : (ofString source).ending = .finish p)
    (h : Respaced ((ofString source).tokens.map Token.lexeme) source'.toList) :
    (ofString source').moved .forget = (ofString source).moved .forget := by
  obtain ⟨gap, rest, htext, trivia, strung⟩ := h
  have hmoved := moved_ofScanner_of_strung strung (spells_of_mem source) trivia .start
  rw [← htext] at hmoved
  refine Eq.trans hmoved ?_
  rw [moved, hfinish]
  rfl

/-- The lexemes of all tokens, joined by blanks, are lexed into tokens of the same kinds. The end of
the text has the empty lexeme, so that a blank stands behind the last of the others. -/
theorem exists_all_joined {tokens : List Token} (h : (ofString source).all = .ok tokens) :
    ∃ tokens', (ofString (" ".intercalate (tokens.map Token.lexeme))).all = .ok tokens' ∧
      tokens'.map Token.kind = tokens.map Token.kind := by
  obtain ⟨p, hfinish, rfl⟩ := all_eq_ok_iff.mp h
  have hstrung := strung_joined ((ofString source).tokens.map Token.lexeme)
  have hlexemes : ((ofString source).tokens ++ [Token.atEnd p]).map Token.lexeme =
      (ofString source).tokens.map Token.lexeme ++ [""] := List.map_append
  rw [← hlexemes] at hstrung
  have hmoved := moved_ofString_of_respaced hfinish ⟨[], _, rfl, .nil, hstrung⟩
  obtain ⟨tokens', hall, hkinds, -⟩ := exists_all_of_moved hmoved h
  exact ⟨tokens', hall, hkinds⟩

end Feed

end MiniPascal
