import MiniPascal.Proofs.Source.Place
import MiniPascal.Proofs.Token.MaximalMunch

/-!
Where tokens lie. A text is made of gaps and lexemes in turn, nothing is left out, and a token lies
between the places at the two ends of its lexeme. `placed_all` states this for a whole text, its
faults included.
-/

set_option autoImplicit false
set_option relaxedAutoImplicit false

namespace MiniPascal

structure Piece where
  gap : List Char
  token : Token

namespace Piece

def text (piece : Piece) : List Char := piece.gap ++ piece.token.lexeme.toList

end Piece

def woven (pieces : List Piece) : List Char := pieces.flatMap Piece.text

/-- Pieces of a text from its beginning on: trivia and lexemes, and each token between the places at
the offsets of its lexeme. -/
structure Laid (source : List Char) (pieces : List Piece) : Prop where
  gaps : ∀ piece ∈ pieces, Trivia piece.gap
  spelled : ∀ piece ∈ pieces, Spells piece.token.lexeme.toList piece.token.kind
  spans : ∀ (i : Nat) (piece : Piece), pieces[i]? = some piece → piece.token.span =
    .ofOffsets source ((woven (pieces.take i)).length + piece.gap.length)
      (woven (pieces.take (i + 1))).length

/-- Tokens in the order of a text: none but its end is empty, and each begins where the ones before
it are over. -/
structure Ordered (tokens : List Token) : Prop where
  filled : ∀ t ∈ tokens, t.kind ≠ .endOfInput → t.span.start < t.span.finish
  apart : tokens.Pairwise fun t u => t.span.start < u.span.start ∧ t.span.finish ≤ u.span.start

/-- A fault lies where no token begins: a character or a number as a point, a comment from its brace
to the end of the text. -/
def LexError.LiesAt (source : List Char) (offset : Nat) (rest : List Char) : LexError → Prop
  | .strayCharacter c span =>
    (∃ more, rest = c :: more) ∧ (∀ lexeme kind, ¬ Offers rest lexeme kind) ∧
      span = .ofOffsets source offset offset
  | .numberOutOfRange text span =>
    (∃ c more, rest = c :: more ∧ c.isDigit = true) ∧ (∀ lexeme kind, ¬ Offers rest lexeme kind) ∧
      (∃ numeral : Numeral, numeral.Leads rest ∧ text = String.ofList numeral.chars) ∧
      span = .ofOffsets source offset offset
  | .unclosedComment span =>
    (∃ body, rest = '{' :: body ∧ '}' ∉ body) ∧ span = .ofOffsets source offset source.length

/-- The tokens of a text with the end of the text behind them, or the fault, each in its place. -/
def Placed (source : List Char) : Except LexError (List Token) → Prop
  | .ok tokens => ∃ pieces gap, source = woven pieces ++ gap ∧ Laid source pieces ∧ Trivia gap ∧
      tokens = pieces.map Piece.token ++
        [⟨.endOfInput, "", .ofOffsets source source.length source.length⟩] ∧ Ordered tokens
  | .error e => ∃ pieces gap rest, source = woven pieces ++ (gap ++ rest) ∧ Laid source pieces ∧
      Trivia gap ∧ e.LiesAt source ((woven pieces).length + gap.length) rest

section Pieces

variable {source : List Char} {pieces : List Piece} {piece : Piece}

@[simp] theorem woven_nil : woven [] = [] := rfl

@[simp] theorem woven_append (front back : List Piece) :
    woven (front ++ back) = woven front ++ woven back :=
  List.flatMap_append

@[simp] theorem woven_singleton (piece : Piece) :
    woven [piece] = piece.gap ++ piece.token.lexeme.toList := by
  simp [woven, Piece.text]

private theorem Laid.nil : Laid source [] where
  gaps := List.forall_mem_nil _
  spelled := List.forall_mem_nil _
  spans := by simp

private theorem Laid.snoc (h : Laid source pieces) (hgap : Trivia piece.gap)
    (hspelled : Spells piece.token.lexeme.toList piece.token.kind)
    (hspan : piece.token.span = .ofOffsets source ((woven pieces).length + piece.gap.length)
      (woven (pieces ++ [piece])).length) :
    Laid source (pieces ++ [piece]) where
  gaps := List.forall_mem_append.mpr ⟨h.gaps, List.forall_mem_singleton.mpr hgap⟩
  spelled := List.forall_mem_append.mpr ⟨h.spelled, List.forall_mem_singleton.mpr hspelled⟩
  spans := by
    intro i p hp
    rcases Nat.lt_trichotomy i pieces.length with hi | rfl | hi
    · rw [List.getElem?_append_left hi] at hp
      rw [List.take_append_of_le_length (Nat.le_of_lt hi), List.take_append_of_le_length hi]
      exact h.spans i p hp
    · obtain rfl : piece = p := by simpa using hp
      rw [List.take_left, List.take_of_length_le (by simp)]
      exact hspan
    · rw [List.getElem?_eq_none (by simp; omega)] at hp
      cases hp

private theorem length_woven_take_le {i j : Nat} (h : i ≤ j) :
    (woven (pieces.take i)).length ≤ (woven (pieces.take j)).length := by
  obtain ⟨back, hback⟩ : pieces.take i <+: pieces.take j := List.take_prefix_take_left h
  rw [← hback, woven_append, List.length_append]
  exact Nat.le_add_right _ _

private theorem length_woven_take_le_of_eq {back : List Char} (h : source = woven pieces ++ back)
    (i : Nat) : (woven (pieces.take i)).length ≤ source.length := by
  have hle : (woven (pieces.take i)).length ≤ (woven (pieces.take (max i pieces.length))).length :=
    length_woven_take_le (Nat.le_max_left i pieces.length)
  rw [List.take_of_length_le (Nat.le_max_right i pieces.length)] at hle
  rw [h, List.length_append]
  omega

private theorem Laid.start_lt_finish {i : Nat} (h : Laid source pieces)
    (hpiece : pieces[i]? = some piece) :
    (woven (pieces.take i)).length + piece.gap.length < (woven (pieces.take (i + 1))).length := by
  have hpos := List.length_pos_iff.mpr (h.spelled piece (List.mem_of_getElem? hpiece)).ne_nil
  rw [List.take_add_one, hpiece, Option.toList_some, woven_append, woven_singleton,
    List.length_append, List.length_append]
  omega

private theorem Laid.finish_le {back : List Char} (h : Laid source pieces)
    (hsource : source = woven pieces ++ back) (hpiece : piece ∈ pieces) :
    piece.token.span.finish ≤ .ofOffset source source.length := by
  obtain ⟨i, hi⟩ := List.mem_iff_getElem?.mp hpiece
  rw [h.spans i piece hi]
  exact Position.ofOffset_le (length_woven_take_le_of_eq hsource _) (Nat.le_refl _)

theorem Laid.ordered {back : List Char} (h : Laid source pieces)
    (hsource : source = woven pieces ++ back) : Ordered (pieces.map Piece.token) := by
  have inside := length_woven_take_le_of_eq hsource
  constructor
  · intro t ht _
    obtain ⟨piece, hmem, rfl⟩ := List.mem_map.mp ht
    obtain ⟨i, hpiece⟩ := List.mem_iff_getElem?.mp hmem
    rw [h.spans i piece hpiece]
    exact Position.ofOffset_lt (h.start_lt_finish hpiece) (inside _)
  · rw [List.pairwise_map, List.pairwise_iff_getElem]
    intro i j hi hj hij
    have hpiece : pieces[i]? = some pieces[i] := List.getElem?_eq_getElem hi
    have hpiece' : pieces[j]? = some pieces[j] := List.getElem?_eq_getElem hj
    have hle : (woven (pieces.take (i + 1))).length ≤ (woven (pieces.take j)).length :=
      length_woven_take_le hij
    have hfilled := h.start_lt_finish hpiece
    have hfilled' := h.start_lt_finish hpiece'
    have hinside := inside (j + 1)
    rw [h.spans i _ hpiece, h.spans j _ hpiece']
    constructor
    · apply Position.ofOffset_lt <;> omega
    · apply Position.ofOffset_le <;> omega

private theorem Ordered.atEnd {tokens : List Token} {p : Position} (h : Ordered tokens)
    (hkind : ∀ t ∈ tokens, t.kind ≠ .endOfInput) (hfinish : ∀ t ∈ tokens, t.span.finish ≤ p) :
    Ordered (tokens ++ [.atEnd p]) where
  filled := List.forall_mem_append.mpr
    ⟨h.filled, List.forall_mem_singleton.mpr fun hne => absurd rfl hne⟩
  apart := by
    refine List.pairwise_append.mpr ⟨h.apart, List.pairwise_singleton _ _, ?_⟩
    intro t ht u hu
    obtain rfl : u = .atEnd p := List.mem_singleton.mp hu
    exact ⟨Position.lt_of_lt_of_le (h.filled t ht (hkind t ht)) (hfinish t ht), hfinish t ht⟩

private theorem advanceOver_eq_ofOffset {p : Position} {pieces : List Piece}
    {text front : List Char} (hp : p = Position.start.advanceOver (woven pieces))
    (hfront : front <+: text) :
    p.advanceOver front =
      .ofOffset (woven pieces ++ text) ((woven pieces).length + front.length) := by
  obtain ⟨back, rfl⟩ := hfront
  rw [hp, ← Position.advanceOver_append, ← List.append_assoc, ← List.length_append,
    Position.ofOffset_append]

def Piece.from (p : Position) (gap lexeme : List Char) (kind : TokenKind) : Piece :=
  ⟨gap, kind, String.ofList lexeme, ⟨p.advanceOver gap, p.advanceOver (gap ++ lexeme)⟩⟩

private theorem woven_snoc_from (p : Position) (pieces : List Piece) (gap lexeme rest : List Char)
    (kind : TokenKind) : woven (pieces ++ [Piece.from p gap lexeme kind]) ++ rest =
      woven pieces ++ (gap ++ (lexeme ++ rest)) := by
  simp [Piece.from]

private theorem Laid.snoc_from {p : Position} {gap lexeme rest : List Char} {kind : TokenKind}
    (h : Laid (woven pieces ++ (gap ++ (lexeme ++ rest))) pieces)
    (hp : p = Position.start.advanceOver (woven pieces)) (trivia : Trivia gap)
    (spells : Spells lexeme kind) :
    Laid (woven pieces ++ (gap ++ (lexeme ++ rest)))
      (pieces ++ [Piece.from p gap lexeme kind]) := by
  have hstart := advanceOver_eq_ofOffset hp (List.prefix_append gap (lexeme ++ rest))
  have hfinish := advanceOver_eq_ofOffset hp (List.prefix_append (gap ++ lexeme) rest)
  rw [List.append_assoc] at hfinish
  refine h.snoc trivia ?_ ?_
  · simpa [Piece.from] using spells
  · simp only [Piece.from, hstart, hfinish, Span.ofOffsets]
    simp

end Pieces

def Ending.LiesAt (source : List Char) (offset : Nat) (rest : List Char) : Ending → Prop
  | .finish p => rest = [] ∧ p = .ofOffset source source.length
  | .fault e => e.LiesAt source offset rest

namespace Feed

/-- A feed whose scanner has come to a place behind some pieces goes on from there. -/
def LiesBehind (pieces : List Piece) (text : List Char) (feed : Feed) : Prop :=
  ∃ more gap rest, feed.tokens = more.map Piece.token ∧
    woven pieces ++ text = woven (pieces ++ more) ++ (gap ++ rest) ∧
    Laid (woven pieces ++ text) (pieces ++ more) ∧ Trivia gap ∧
    feed.ending.LiesAt (woven pieces ++ text) ((woven (pieces ++ more)).length + gap.length) rest

/-- However far a scanner has come, the feed it goes on with lies behind the pieces passed. -/
private theorem liesBehind {p : Position} {text : List Char} {result : Except LexError (List Token)}
    (h : Tokenised p text result) (pieces : List Piece)
    (hp : p = Position.start.advanceOver (woven pieces))
    (hlaid : Laid (woven pieces ++ text) pieces) :
    (ofScanner ⟨text, p⟩).LiesBehind pieces text := by
  induction h generalizing pieces with
  | @finish p gap trivia =>
    rw [ofScanner_eq, next_finish trivia]
    refine ⟨[], gap, [], rfl, by simp, by simpa using hlaid, trivia, rfl, ?_⟩
    simpa [Token.atEnd, Span.point] using advanceOver_eq_ofOffset hp (List.prefix_refl gap)
  | @token p gap lexeme rest kind result trivia longest others ih =>
    rw [ofScanner_eq, next_token trivia longest]
    simp only [if_neg longest.1.1.kind_ne_endOfInput]
    let piece := Piece.from p gap lexeme kind
    have hwoven : woven (pieces ++ [piece]) ++ rest = woven pieces ++ (gap ++ (lexeme ++ rest)) :=
      woven_snoc_from p pieces gap lexeme rest kind
    have hend : p.advanceOver (gap ++ lexeme) =
        Position.start.advanceOver (woven (pieces ++ [piece])) := by
      simp [piece, Piece.from, hp, Position.advanceOver_append]
    have hsnoc : Laid (woven (pieces ++ [piece]) ++ rest) (pieces ++ [piece]) := by
      rw [hwoven]
      exact hlaid.snoc_from hp trivia longest.1.1
    obtain ⟨more, gap', rest', htokens, hsource, hmore, trivia', hending⟩ :=
      ih (pieces ++ [piece]) hend hsnoc
    rw [hwoven, List.append_assoc] at hsource hmore hending
    refine ⟨piece :: more, gap', rest', ?_, hsource, hmore, trivia', hending⟩
    rw [htokens]
    rfl
  | @unclosedComment p gap body trivia open_ended =>
    rw [ofScanner_eq, next_unclosedComment trivia open_ended]
    refine ⟨[], gap, '{' :: body, rfl, by simp, by simpa using hlaid, trivia,
      ⟨body, rfl, open_ended⟩, ?_⟩
    have hstart := advanceOver_eq_ofOffset hp (List.prefix_append gap ('{' :: body))
    have hfinish := advanceOver_eq_ofOffset hp (List.prefix_refl (gap ++ '{' :: body))
    simp only [hstart, hfinish, Span.ofOffsets]
    simp
  | @strayCharacter p gap rest c trivia settled no_offer no_digit =>
    rw [ofScanner_eq, next_offence trivia settled no_offer]
    refine ⟨[], gap, c :: rest, rfl, by simp, by simpa using hlaid, trivia, ?_⟩
    have hstart := advanceOver_eq_ofOffset hp (List.prefix_append gap (c :: rest))
    simp only [Scanner.offence, no_digit, Bool.false_eq_true, if_false]
    refine ⟨⟨rest, rfl⟩, no_offer, ?_⟩
    simp only [Span.point, hstart, Span.ofOffsets]
    simp
  | @numberOutOfRange p gap rest c n trivia no_offer digit run =>
    rw [ofScanner_eq, next_offence trivia (settled_of_visible (visible_of_digit digit)) no_offer]
    refine ⟨[], gap, c :: rest, rfl, by simp, by simpa using hlaid, trivia, ?_⟩
    have hstart := advanceOver_eq_ofOffset hp (List.prefix_append gap (c :: rest))
    simp only [Scanner.offence, digit, if_true, Numeral.scan_eq_of_leads run]
    refine ⟨⟨c, rest, rfl, digit⟩, no_offer, ⟨n, run, rfl⟩, ?_⟩
    simp only [Span.point, hstart, Span.ofOffsets]
    simp

theorem exists_pieces (source : String) :
    ∃ pieces gap rest, (ofString source).tokens = pieces.map Piece.token ∧
      source.toList = woven pieces ++ (gap ++ rest) ∧ Laid source.toList pieces ∧ Trivia gap ∧
      (ofString source).ending.LiesAt source.toList ((woven pieces).length + gap.length) rest := by
  obtain ⟨result, h⟩ := Tokenised.exists_result .start source.toList
  exact liesBehind h [] rfl .nil

/-- The tokens that can be looked at: the end of the text is one of them, a fault is not. -/
def row (feed : Feed) : List Token :=
  match feed.ending with
  | .finish p => feed.tokens ++ [.atEnd p]
  | .fault _ => feed.tokens

theorem ordered_row (source : String) : Ordered (ofString source).row := by
  obtain ⟨pieces, gap, rest, htokens, hsource, hlaid, -, hending⟩ := exists_pieces source
  have hordered := hlaid.ordered hsource
  unfold row
  split
  · rename_i p hcase
    rw [hcase] at hending
    obtain ⟨rfl, rfl⟩ := hending
    rw [htokens]
    refine hordered.atEnd ?_ ?_
    · rw [List.forall_mem_map]
      exact fun piece hpiece => (hlaid.spelled piece hpiece).kind_ne_endOfInput
    · rw [List.forall_mem_map]
      exact fun piece hpiece => hlaid.finish_le hsource hpiece
  · rwa [htokens]

end Feed

/-- Scanning loses nothing of a text and puts every token, and a fault as well, where it belongs. -/
theorem placed_all (source : String) : Placed source.toList (Feed.ofString source).all := by
  obtain ⟨pieces, gap, rest, htokens, hsource, hlaid, trivia, hending⟩ := Feed.exists_pieces source
  have hordered := Feed.ordered_row source
  unfold Feed.row at hordered
  unfold Feed.all
  cases hcase : (Feed.ofString source).ending with
  | fault e =>
    rw [hcase] at hending
    exact ⟨pieces, gap, rest, hsource, hlaid, trivia, hending⟩
  | finish p =>
    rw [hcase] at hending hordered
    obtain ⟨rfl, rfl⟩ := hending
    rw [List.append_nil] at hsource
    refine ⟨pieces, gap, hsource, hlaid, trivia, ?_, hordered⟩
    rw [htokens]
    rfl

end MiniPascal
