import Mathlib.Logic.Function.Iterate
import MiniPascal.Proofs.Source.Place
import MiniPascal.Proofs.Token.MaximalMunch

/-!
A scanner that is asked again and again. As long as it gives tokens, what is left of the text gets
shorter; then it comes to rest, at the end of the text or at a fault, and repeats itself. A
sequence stops there. `Scanner.comes_to_rest` states this for any number of calls.
-/

set_option autoImplicit false
set_option relaxedAutoImplicit false

namespace MiniPascal

namespace Scanner

def after (s : Scanner) (n : Nat) : Scanner := (fun s => s.next.2)^[n] s

/-- What a call gives, the first one being call zero. -/
def call (s : Scanner) (n : Nat) : Except LexError Token := (s.after n).next.1

def finish (s : Scanner) : Position := s.position.advanceOver s.rest

def IsFinal : Except LexError Token → Prop
  | .ok t => t.kind = .endOfInput
  | .error _ => True

instance : DecidablePred IsFinal
  | .ok t => inferInstanceAs (Decidable (t.kind = .endOfInput))
  | .error _ => .isTrue trivial

/-- What a call can do. A token shortens what is left; nothing is left at the end of the text and
behind a comment without an end; any other fault stays in front. -/
inductive Steps (s : Scanner) : Except LexError Token → Scanner → Prop
  | token {t : Token} {s' : Scanner} (inside : t.kind ≠ .endOfInput)
      (shorter : s'.rest.length < s.rest.length) (same_end : s'.finish = s.finish) :
      Steps s (.ok t) s'
  | finish : Steps s (.ok (.atEnd s.finish)) ⟨[], s.finish⟩
  | unclosedComment {span : Span} : Steps s (.error (.unclosedComment span)) ⟨[], s.finish⟩
  | offence {e : LexError} {s' : Scanner} (closed : ∀ span, e ≠ .unclosedComment span)
      (same_end : s'.finish = s.finish) (again : s'.next = (.error e, s')) :
      Steps s (.error e) s'

section Step

variable {s : Scanner}

private theorem finish_append (p : Position) (front back : List Char) :
    finish ⟨back, p.advanceOver front⟩ = finish ⟨front ++ back, p⟩ :=
  (Position.advanceOver_append p front back).symm

private theorem offence_ne_unclosedComment (s : Scanner) (c : Char) (span : Span) :
    s.offence c ≠ .unclosedComment span := by
  unfold offence
  split <;> simp

private theorem steps_offence {p : Position} {gap rest : List Char} {c : Char} (trivia : Trivia gap)
    (settled : Settled (c :: rest)) (no_offer : ∀ lexeme kind, ¬ Offers (c :: rest) lexeme kind) :
    Steps ⟨gap ++ c :: rest, p⟩ (next ⟨gap ++ c :: rest, p⟩).1 (next ⟨gap ++ c :: rest, p⟩).2 := by
  rw [next_offence trivia settled no_offer]
  refine .offence (offence_ne_unclosedComment _ _) (finish_append p gap (c :: rest)) ?_
  exact next_offence (p := p.advanceOver gap) .nil settled no_offer

private theorem steps_next (s : Scanner) : s.Steps s.next.1 s.next.2 := by
  obtain ⟨text, p⟩ := s
  obtain ⟨result, tokenised⟩ := Tokenised.exists_result p text
  cases tokenised with
  | finish trivia =>
    rw [next_finish trivia]
    exact .finish
  | @token _ gap lexeme rest kind _ trivia longest others =>
    rw [next_token trivia longest]
    refine .token longest.1.1.kind_ne_endOfInput ?_ ?_
    · have hpos := List.length_pos_iff.mpr longest.1.1.ne_nil
      simp only [List.length_append]
      omega
    · rw [finish_append, List.append_assoc]
  | unclosedComment trivia open_ended =>
    rw [next_unclosedComment trivia open_ended]
    exact .unclosedComment
  | strayCharacter trivia settled no_offer no_digit => exact steps_offence trivia settled no_offer
  | numberOutOfRange trivia no_offer digit run =>
    exact steps_offence trivia (settled_of_visible (visible_of_digit digit)) no_offer

private theorem next_nil (p : Position) :
    next ⟨[], p⟩ = (.ok (.atEnd p), ⟨[], p⟩) := next_finish .nil

private theorem Steps.finish_eq {result : Except LexError Token} {s' : Scanner}
    (h : s.Steps result s') : s'.finish = s.finish := by
  cases h with
  | token _ _ same_end => exact same_end
  | finish => rfl
  | unclosedComment => rfl
  | offence _ same_end _ => exact same_end

end Step

section Calls

variable {s : Scanner} {n m : Nat}

private theorem after_succ (s : Scanner) (n : Nat) : s.after (n + 1) = (s.after n).next.2 :=
  Function.iterate_succ_apply' _ n s

private theorem call_succ (s : Scanner) (n : Nat) : s.call (n + 1) = s.next.2.call n :=
  congrArg (fun s => s.next.1) (Function.iterate_succ_apply _ n s)

private theorem steps_call (s : Scanner) (n : Nat) :
    (s.after n).Steps (s.call n) (s.after (n + 1)) := by
  rw [after_succ]
  exact steps_next _

private theorem finish_after (s : Scanner) (n : Nat) : (s.after n).finish = s.finish := by
  induction n with
  | zero => rfl
  | succ n ih => rw [(s.steps_call n).finish_eq, ih]

private theorem call_eq_of_next {result : Except LexError Token}
    (h : (s.after n).next = (result, s.after n)) (hm : n ≤ m) : s.call m = result := by
  obtain ⟨k, rfl⟩ := Nat.exists_eq_add_of_le hm
  have hafter : s.after (n + k) = s.after n := by
    induction k with
    | zero => rfl
    | succ k ih => rw [← Nat.add_assoc, after_succ, ih (Nat.le_add_right n k), h]
  rw [call, hafter, h]

private theorem shorter_of_call {t : Token} (h : s.call n = .ok t) (ht : t.kind ≠ .endOfInput) :
    (s.after (n + 1)).rest.length < (s.after n).rest.length := by
  have hsteps := s.steps_call n
  rw [h] at hsteps
  generalize s.after (n + 1) = s' at hsteps
  cases hsteps with
  | token _ shorter _ => exact shorter
  | finish => exact absurd rfl ht

private theorem call_of_after_eq_nil (h : s.after n = ⟨[], s.finish⟩) (hm : n ≤ m) :
    s.call m = .ok (.atEnd s.finish) := by
  refine call_eq_of_next ?_ hm
  rw [h, next_nil]

private theorem call_of_endOfInput {t : Token} (h : s.call n = .ok t) (ht : t.kind = .endOfInput) :
    t = .atEnd s.finish ∧ ∀ m, n ≤ m → s.call m = .ok t := by
  have hsteps := s.steps_call n
  rw [h] at hsteps
  generalize hafter : s.after (n + 1) = s' at hsteps
  cases hsteps with
  | token inside _ _ => exact absurd ht inside
  | finish =>
    rw [finish_after] at hafter h ⊢
    refine ⟨rfl, fun m hm => ?_⟩
    rcases Nat.eq_or_lt_of_le hm with rfl | hm
    · exact h
    · exact call_of_after_eq_nil hafter hm

private theorem call_of_unclosedComment {span : Span}
    (h : s.call n = .error (.unclosedComment span))
    (hm : n < m) : s.call m = .ok (.atEnd s.finish) := by
  have hsteps := s.steps_call n
  rw [h] at hsteps
  generalize hafter : s.after (n + 1) = s' at hsteps
  cases hsteps with
  | unclosedComment =>
    rw [finish_after] at hafter
    exact call_of_after_eq_nil hafter hm
  | offence closed _ _ => exact absurd rfl (closed span)

private theorem call_of_offence {e : LexError} (h : s.call n = .error e)
    (closed : ∀ span, e ≠ .unclosedComment span) (hm : n ≤ m) : s.call m = .error e := by
  have hsteps := s.steps_call n
  rw [h] at hsteps
  generalize hafter : s.after (n + 1) = s' at hsteps
  cases hsteps with
  | unclosedComment => exact absurd rfl (closed _)
  | offence _ _ again =>
    subst hafter
    rcases Nat.eq_or_lt_of_le hm with rfl | hm
    · exact h
    · exact call_eq_of_next again hm

/-- Calls that give tokens shorten the text, so one of the first ones gives something else. -/
private theorem exists_final_call (s : Scanner) :
    ∃ last ≤ s.rest.length, (∀ i < last, ¬ IsFinal (s.call i)) ∧ IsFinal (s.call last) := by
  induction hn : s.rest.length using Nat.strongRecOn generalizing s with
  | _ n ih =>
    subst hn
    by_cases hfinal : IsFinal (s.call 0)
    · exact ⟨0, Nat.zero_le _, fun i hi => absurd hi (Nat.not_lt_zero i), hfinal⟩
    · cases hcall : s.call 0 with
      | error e =>
        rw [hcall] at hfinal
        exact absurd trivial hfinal
      | ok t =>
        rw [hcall] at hfinal
        have shorter : s.next.2.rest.length < s.rest.length := shorter_of_call hcall hfinal
        obtain ⟨last, hlast, hbefore, hend⟩ := ih _ shorter s.next.2 rfl
        refine ⟨last + 1, Nat.lt_of_le_of_lt hlast shorter, ?_, ?_⟩
        · intro i hi
          cases i with
          | zero =>
            rw [hcall]
            exact hfinal
          | succ i =>
            rw [call_succ]
            exact hbefore i (Nat.lt_of_succ_lt_succ hi)
        · rw [call_succ]
          exact hend

end Calls

end Scanner

namespace TokenSequence

def after (s : TokenSequence) (n : Nat) : TokenSequence := (fun s => s.next.2)^[n] s

def item (s : TokenSequence) (n : Nat) : Option (Except LexError Token) := (s.after n).next.1

section Items

variable {s : Scanner} {n last : Nat}

private theorem after_succ (s : TokenSequence) (n : Nat) : s.after (n + 1) = (s.after n).next.2 :=
  Function.iterate_succ_apply' _ n s

theorem next_running (s : Scanner) :
    next ⟨s, false⟩ = (some s.next.1, ⟨s.next.2, decide (Scanner.IsFinal s.next.1)⟩) := by
  unfold next
  rcases s.next with ⟨_ | t, s'⟩ <;> rfl

private theorem next_ended (s : Scanner) : next ⟨s, true⟩ = (none, ⟨s, true⟩) := rfl

private theorem after_running (h : ∀ i < n, ¬ Scanner.IsFinal (s.call i)) :
    after ⟨s, false⟩ n = ⟨s.after n, false⟩ := by
  induction n with
  | zero => rfl
  | succ n ih =>
    have hlast : ¬ Scanner.IsFinal (s.after n).next.1 := h n (Nat.lt_succ_self n)
    rw [after_succ, ih fun i hi => h i (Nat.lt_succ_of_lt hi), next_running, Scanner.after_succ,
      decide_eq_false hlast]

private theorem item_running (h : ∀ i < last, ¬ Scanner.IsFinal (s.call i)) (hn : n ≤ last) :
    item ⟨s, false⟩ n = some (s.call n) := by
  rw [item, after_running fun i hi => h i (Nat.lt_of_lt_of_le hi hn), next_running]
  rfl

private theorem item_ended (h : ∀ i < last, ¬ Scanner.IsFinal (s.call i))
    (hlast : Scanner.IsFinal (s.call last)) (hn : last < n) : item ⟨s, false⟩ n = none := by
  obtain ⟨k, rfl⟩ := Nat.exists_eq_add_of_le hn
  have hover : after ⟨s, false⟩ (last + 1 + k) = ⟨s.after (last + 1), true⟩ := by
    induction k with
    | zero =>
      have hfinal : Scanner.IsFinal (s.after last).next.1 := hlast
      rw [Nat.add_zero, after_succ, after_running h, next_running, decide_eq_true hfinal,
        Scanner.after_succ]
    | succ k ih => rw [← Nat.add_assoc, after_succ, ih (by omega), next_ended]
  rw [item, hover, next_ended]

end Items

end TokenSequence

namespace Scanner

/-- Calls of a scanner that give tokens shorten what is left of the text. Once the end of the text
is given it is given by every call, at the same place; so is a fault, the same one, but for a
comment without an end, behind which only the end of the text is left. A sequence gives what calls
give as far as the end of the text or the first fault, after no more tokens than there are
characters, and nothing from then on. -/
theorem comes_to_rest (source : String) :
    (∀ n,
      (∀ t, (ofString source).call n = .ok t → t.kind ≠ .endOfInput →
        ((ofString source).after (n + 1)).rest.length < ((ofString source).after n).rest.length) ∧
      (∀ t, (ofString source).call n = .ok t → t.kind = .endOfInput →
        t = .atEnd (.ofOffset source.toList source.toList.length) ∧
          ∀ m, n ≤ m → (ofString source).call m = .ok t) ∧
      (∀ e, (ofString source).call n = .error e → (∀ span, e ≠ .unclosedComment span) →
        ∀ m, n ≤ m → (ofString source).call m = .error e) ∧
      ∀ span, (ofString source).call n = .error (.unclosedComment span) → ∀ m, n < m →
        (ofString source).call m = .ok (.atEnd (.ofOffset source.toList source.toList.length))) ∧
    ∃ last ≤ source.length,
      (∀ i < last, ∃ t, (ofString source).call i = .ok t ∧ t.kind ≠ .endOfInput) ∧
      ((∃ t, (ofString source).call last = .ok t ∧ t.kind = .endOfInput) ∨
        ∃ e, (ofString source).call last = .error e) ∧
      (∀ i ≤ last, (TokenSequence.ofString source).item i = some ((ofString source).call i)) ∧
      ∀ i, last < i → (TokenSequence.ofString source).item i = none := by
  have hfinish : (ofString source).finish = .ofOffset source.toList source.toList.length :=
    (Position.ofOffset_length source.toList).symm
  constructor
  · intro n
    rw [← hfinish]
    exact ⟨fun t => shorter_of_call, fun t => call_of_endOfInput, fun e h closed m =>
      call_of_offence h closed, fun span h m => call_of_unclosedComment h⟩
  · obtain ⟨last, hlast, hbefore, hend⟩ := (ofString source).exists_final_call
    refine ⟨last, ?_, ?_, ?_, fun i => TokenSequence.item_running hbefore, fun i =>
      TokenSequence.item_ended hbefore hend⟩
    · rw [← String.length_toList]
      exact hlast
    · intro i hi
      have hbegin := hbefore i hi
      cases hcall : (ofString source).call i with
      | ok t =>
        rw [hcall] at hbegin
        exact ⟨t, rfl, hbegin⟩
      | error e =>
        rw [hcall] at hbegin
        exact absurd trivial hbegin
    · cases hcall : (ofString source).call last with
      | ok t =>
        rw [hcall] at hend
        exact .inl ⟨t, rfl, hend⟩
      | error e => exact .inr ⟨e, rfl⟩

end Scanner

end MiniPascal
