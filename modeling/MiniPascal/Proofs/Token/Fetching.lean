import MiniPascal.Proofs.Token.MaximalMunch

/-!
Tokens fetched one at a time. What a scanner gives when it is asked again and again is what its feed
holds: first the tokens, then the end of the text or a fault.
-/

set_option autoImplicit false
set_option relaxedAutoImplicit false

namespace MiniPascal

namespace Scanner

/-- Asked for one token after the other, a scanner gives these and goes on as another one. -/
inductive Gives : Scanner → List Token → Scanner → Prop
  | nil {s : Scanner} : Gives s [] s
  | cons {s s' s'' : Scanner} {t : Token} {ts : List Token} (first : s.next = (.ok t, s'))
      (others : Gives s' ts s'') : Gives s (t :: ts) s''

variable {s s' s'' : Scanner} {t : Token} {ts us : List Token}

theorem gives_append : s.Gives (ts ++ us) s'' ↔ ∃ s', s.Gives ts s' ∧ s'.Gives us s'' := by
  constructor
  · intro h
    induction ts generalizing s with
    | nil => exact ⟨s, .nil, h⟩
    | cons t ts ih =>
      cases h with
      | cons first others =>
        obtain ⟨s', hts, hus⟩ := ih others
        exact ⟨s', .cons first hts, hus⟩
  · rintro ⟨s', hts, hus⟩
    induction hts with
    | nil => exact hus
    | cons first _ ih => exact .cons first (ih hus)

theorem Gives.single (h : s.next = (.ok t, s')) : s.Gives [t] s' := .cons h .nil

theorem Gives.snoc (h : s.Gives ts s') (hnext : s'.next = (.ok t, s'')) :
    s.Gives (ts ++ [t]) s'' :=
  gives_append.mpr ⟨s', h, .single hnext⟩

private theorem next_endOfInput (h : s.next = (.ok t, s')) (ht : t.kind = .endOfInput) :
    ∃ p, t = .atEnd p ∧ s' = ⟨[], p⟩ := by
  obtain ⟨text, p⟩ := s
  obtain ⟨result, tokenised⟩ := Tokenised.exists_result p text
  cases tokenised with
  | finish trivia =>
    rw [next_finish trivia] at h
    cases h
    exact ⟨_, rfl, rfl⟩
  | token trivia longest others =>
    rw [next_token trivia longest] at h
    cases h
    exact absurd ht longest.1.1.kind_ne_endOfInput
  | unclosedComment trivia open_ended =>
    rw [next_unclosedComment trivia open_ended] at h
    cases h
  | strayCharacter trivia settled no_offer no_digit =>
    rw [next_offence trivia settled no_offer] at h
    cases h
  | numberOutOfRange trivia no_offer digit run =>
    rw [next_offence trivia (settled_of_visible (visible_of_digit digit)) no_offer] at h
    cases h

end Scanner

namespace Feed

variable {s s' : Scanner} {ts : List Token} {ending : Ending}

theorem ofScanner_of_gives (h : s.Gives ts s') (hts : ∀ t ∈ ts, t.kind ≠ .endOfInput) :
    ofScanner s = ⟨ts ++ (ofScanner s').tokens, (ofScanner s').ending⟩ := by
  induction h with
  | nil => rfl
  | cons first _ ih =>
    obtain ⟨ht, hts⟩ := List.forall_mem_cons.mp hts
    rw [ofScanner_eq, first]
    simp only [if_neg ht, ih hts, List.cons_append]

theorem ofScanner_of_endOfInput {t : Token} (h : s.next = (.ok t, s'))
    (ht : t.kind = .endOfInput) : ofScanner s = ⟨[], .finish t.span.start⟩ := by
  rw [ofScanner_eq, h]
  simp only [if_pos ht]

theorem exists_gives (s : Scanner) :
    ∃ s', s.Gives (ofScanner s).tokens s' ∧ ofScanner s' = ⟨[], (ofScanner s).ending⟩ := by
  induction hn : s.rest.length using Nat.strongRecOn generalizing s with
  | _ n ih =>
    rw [ofScanner_eq]
    split
    · rename_i e after h
      refine ⟨s, .nil, ?_⟩
      rw [ofScanner_eq, h]
    · rename_i t after h
      split
      · rename_i ht
        exact ⟨s, .nil, ofScanner_of_endOfInput h ht⟩
      · rename_i ht
        have shorter := Scanner.length_lt_of_next h ht
        obtain ⟨s', hgives, hending⟩ := ih _ (hn ▸ shorter) after rfl
        exact ⟨s', .cons h hgives, hending⟩

theorem next_of_finish {p : Position} (h : ofScanner s = ⟨[], .finish p⟩) :
    s.next = (.ok (.atEnd p), ⟨[], p⟩) := by
  rw [ofScanner_eq] at h
  split at h
  · cases h
  · rename_i t after hnext
    split at h
    · rename_i ht
      obtain ⟨q, rfl, rfl⟩ := Scanner.next_endOfInput hnext ht
      cases h
      exact hnext
    · cases h

theorem next_of_fault {e : LexError} (h : ofScanner s = ⟨[], .fault e⟩) :
    ∃ s', s.next = (.error e, s') := by
  rw [ofScanner_eq] at h
  split at h
  · rename_i e' after hnext
    cases h
    exact ⟨after, hnext⟩
  · split at h <;> cases h

end Feed

end MiniPascal
