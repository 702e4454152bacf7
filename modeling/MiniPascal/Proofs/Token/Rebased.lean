import MiniPascal.Proofs.Grammar.Moved
import MiniPascal.Proofs.Token.Progress

/-!
Where a text begins is immaterial. A scanner in the middle of a text goes on as one that begins with
what is left, but for the names of the places: `Program.independent_of_place` says so of calls, of
sequences and of reading. The columns of the first line are shifted, those of later lines are not,
so the two scanners are compared as they walk: one is always where the other's place is mapped to.
-/

set_option autoImplicit false
set_option relaxedAutoImplicit false

namespace MiniPascal

namespace Position

/-- The name that a place of a text has if the text begins at `origin` and not in line one, column
one. What is left of the line of `origin` is the first line of the text. -/
def rebase (origin p : Position) : Position :=
  if p.line = 1 then ⟨origin.line, origin.column + p.column - 1⟩
  else ⟨origin.line + p.line - 1, p.column⟩

/-- From a place on, mapping the end of a walk is walking from where the place is mapped to. -/
def KeepsStep (f : Position → Position) (p : Position) : Prop :=
  ∀ text, f (p.advanceOver text) = (f p).advanceOver text

private theorem KeepsStep.advanceOver {f : Position → Position} {p : Position} (h : KeepsStep f p)
    (front : List Char) : KeepsStep f (p.advanceOver front) := by
  intro text
  rw [← advanceOver_append, h, h, advanceOver_append]

private theorem rebase_start (origin : Position) : origin.rebase start = origin := rfl

private theorem rebase_advance (origin : Position) {p : Position} (h : start ≤ p) (c : Char) :
    origin.rebase (p.advance c) = (origin.rebase p).advance c := by
  have hline : 1 < p.line ∨ (1 = p.line ∧ 1 ≤ p.column) := le_iff.mp h
  unfold rebase advance
  by_cases hc : c = '\n'
  · have hnext : p.line + 1 ≠ 1 := by omega
    by_cases hfirst : p.line = 1
    · simp [hc, hfirst]
    · simp only [hc, if_true, if_neg hnext, if_neg hfirst, mk.injEq, and_true]
      omega
  · by_cases hfirst : p.line = 1
    · simp only [hc, hfirst, if_false, if_true, mk.injEq, true_and]
      omega
    · simp only [hc, hfirst, if_false]

private theorem keepsStep_rebase (origin : Position) : KeepsStep origin.rebase start := by
  intro text
  induction text using List.reverseRecOn with
  | nil => rfl
  | append_singleton cs c ih =>
    rw [advanceOver_append, advanceOver_append, ← ih]
    exact rebase_advance origin (le_advanceOver start cs) c

example : rebase ⟨3, 5⟩ (start.advanceOver ['a', 'b']) = ⟨3, 7⟩ ∧
    rebase ⟨3, 5⟩ (start.advanceOver ['a', '\n', 'b']) = ⟨4, 2⟩ := by decide

end Position

open Position (KeepsStep)

/-- A map commutes with any number of steps if it commutes with one where a property holds that a
step keeps. -/
private theorem iterate_moved {α : Type} (step map : α → α) (Kept : α → Prop)
    (h : ∀ a, Kept a → step (map a) = map (step a) ∧ Kept (step a)) {a : α} (start : Kept a)
    (n : Nat) : step^[n] (map a) = map (step^[n] a) ∧ Kept (step^[n] a) := by
  -- `Function.Semiconj.iterate_right` asks for this everywhere; the invariant is carried along.
  induction n with
  | zero => exact ⟨rfl, start⟩
  | succ n ih =>
    obtain ⟨hmap, hkept⟩ := ih
    rw [Function.iterate_succ_apply', Function.iterate_succ_apply', hmap]
    exact h _ hkept

namespace Scanner

def left (s : Scanner) : String := String.ofList s.rest

def movedResult (f : Position → Position) (result : Except LexError Token) :
    Except LexError Token :=
  (result.map (Token.moved f)).mapError (LexError.moved f)

def moved (f : Position → Position) (s : Scanner) : Scanner := ⟨s.rest, f s.position⟩

variable {f : Position → Position} {s : Scanner}

private theorem moved_offence (f : Position → Position) (s : Scanner) (c : Char) :
    (s.moved f).offence c = (s.offence c).moved f := by
  unfold offence
  split <;> rfl

private theorem next_moved (h : KeepsStep f s.position) :
    (s.moved f).next = (movedResult f s.next.1, s.next.2.moved f) ∧
      KeepsStep f s.next.2.position := by
  obtain ⟨text, p⟩ := s
  obtain ⟨result, tokenised⟩ := Tokenised.exists_result p text
  cases tokenised with
  | finish trivia =>
    simp only [moved, next_finish trivia, ← h _]
    exact ⟨rfl, h.advanceOver _⟩
  | token trivia longest others =>
    simp only [moved, next_token trivia longest, ← h _]
    exact ⟨rfl, h.advanceOver _⟩
  | unclosedComment trivia open_ended =>
    simp only [moved, next_unclosedComment trivia open_ended, ← h _]
    exact ⟨rfl, h.advanceOver _⟩
  | @strayCharacter _ gap rest c trivia settled no_offer no_digit =>
    have hoffence := moved_offence f ⟨c :: rest, p.advanceOver gap⟩ c
    simp only [moved, next_offence trivia settled no_offer, ← h _] at hoffence ⊢
    exact ⟨by rw [hoffence]; rfl, h.advanceOver _⟩
  | @numberOutOfRange _ gap rest c n trivia no_offer digit run =>
    have settled : Settled (c :: rest) := settled_of_visible (visible_of_digit digit)
    have hoffence := moved_offence f ⟨c :: rest, p.advanceOver gap⟩ c
    simp only [moved, next_offence trivia settled no_offer, ← h _] at hoffence ⊢
    exact ⟨by rw [hoffence]; rfl, h.advanceOver _⟩

private theorem after_moved (h : KeepsStep f s.position) (n : Nat) :
    (s.moved f).after n = (s.after n).moved f ∧ KeepsStep f (s.after n).position := by
  refine iterate_moved (fun s => s.next.2) (moved f) (fun s => KeepsStep f s.position) ?_ h n
  intro s hs
  obtain ⟨hnext, hstep⟩ := next_moved hs
  exact ⟨congrArg Prod.snd hnext, hstep⟩

private theorem call_moved (h : KeepsStep f s.position) (n : Nat) :
    (s.moved f).call n = movedResult f (s.call n) := by
  obtain ⟨hafter, hstep⟩ := after_moved h n
  rw [call, hafter, (next_moved hstep).1, call]

/-- A scanner is one at the beginning of what it has left, moved to its place. -/
private theorem eq_moved_ofString (s : Scanner) :
    s = (ofString s.left).moved s.position.rebase := by
  rw [moved, ofString, left, String.toList_ofList, Position.rebase_start]

end Scanner

namespace TokenSequence

def moved (f : Position → Position) (s : TokenSequence) : TokenSequence :=
  ⟨s.scanner.moved f, s.ended⟩

variable {f : Position → Position} {s : TokenSequence}

private theorem isFinal_movedResult (result : Except LexError Token) :
    Scanner.IsFinal (Scanner.movedResult f result) ↔ Scanner.IsFinal result := by
  cases result <;> exact Iff.rfl

private theorem next_moved (h : KeepsStep f s.scanner.position) :
    (s.moved f).next = (s.next.1.map (Scanner.movedResult f), s.next.2.moved f) ∧
      KeepsStep f s.next.2.scanner.position := by
  obtain ⟨scanner, ended⟩ := s
  cases ended with
  | true => exact ⟨rfl, h⟩
  | false =>
    obtain ⟨hnext, hstep⟩ := Scanner.next_moved h
    rw [moved, next_running, next_running, hnext]
    simp only [isFinal_movedResult]
    exact ⟨rfl, hstep⟩

private theorem after_moved (h : KeepsStep f s.scanner.position) (n : Nat) :
    (s.moved f).after n = (s.after n).moved f ∧ KeepsStep f (s.after n).scanner.position := by
  refine iterate_moved (fun s => s.next.2) (moved f) (fun s => KeepsStep f s.scanner.position) ?_
    h n
  intro s hs
  obtain ⟨hnext, hstep⟩ := next_moved hs
  exact ⟨congrArg Prod.snd hnext, hstep⟩

private theorem item_moved (h : KeepsStep f s.scanner.position) (n : Nat) :
    (s.moved f).item n = (s.item n).map (Scanner.movedResult f) := by
  obtain ⟨hafter, hstep⟩ := after_moved h n
  rw [item, hafter, (next_moved hstep).1, item]

end TokenSequence

private theorem Feed.ofScanner_moved {f : Position → Position} {s : Scanner}
    (h : KeepsStep f s.position) : ofScanner (s.moved f) = (ofScanner s).moved f := by
  induction hn : s.rest.length using Nat.strongRecOn generalizing s with
  | _ n ih =>
    subst hn
    obtain ⟨hnext, hstep⟩ := Scanner.next_moved h
    rw [ofScanner_eq, ofScanner_eq, hnext]
    rcases hs : s.next with ⟨e | t, after⟩
    · rfl
    · by_cases ht : t.kind = .endOfInput
      · simp only [Scanner.movedResult, Except.map, Except.mapError, Token.kind_moved, ht, if_true]
        rfl
      · have shorter := Scanner.length_lt_of_next hs ht
        rw [hs] at hstep
        simp only [Scanner.movedResult, Except.map, Except.mapError, Token.kind_moved, ht, if_false,
          ih _ shorter hstep rfl]
        rfl

namespace Program

/-- A scanner, after any number of calls on any text, goes on as one that begins with the text that
is left, and so do a sequence and the reading of a program: the tokens, the tree and the error are
the same, and a place in the first line of that text is one in the line that the scanner has come
to, as many columns further right, while a place in a later line keeps its column. -/
theorem independent_of_place (s : Scanner) :
    (∀ n, s.call n =
      Scanner.movedResult s.position.rebase ((Scanner.ofString s.left).call n)) ∧
    (∀ n, TokenSequence.item ⟨s, false⟩ n =
      ((TokenSequence.ofString s.left).item n).map (Scanner.movedResult s.position.rebase)) ∧
    ofScanner s = (ofString s.left).mapError (ParseError.moved s.position.rebase) := by
  have hstep := Position.keepsStep_rebase s.position
  have hmoved : s = (Scanner.ofString s.left).moved s.position.rebase := s.eq_moved_ofString
  refine ⟨fun n => ?_, fun n => ?_, ?_⟩
  · conv_lhs => rw [hmoved]
    exact Scanner.call_moved hstep n
  · conv_lhs => rw [hmoved]
    exact TokenSequence.item_moved (s := .ofString s.left) hstep n
  · have hfeed : Feed.ofScanner s = (Feed.ofString s.left).moved s.position.rebase := by
      conv_lhs => rw [hmoved]
      exact Feed.ofScanner_moved hstep
    rw [ofScanner, hfeed, Parse.toExcept_run_program_moved]
    rfl

end Program

end MiniPascal
