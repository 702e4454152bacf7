import MiniPascal.Proofs.Token.Offer
import MiniPascal.Token.Scanner

/-!
The order of the token classes does not matter. Two offers of one length at one place are the same
lexeme, so they are of one kind, and each kind belongs to one class. `nextBy_of_perm` says that the
scanner reads the same token, or fails alike, with its classes in any order.
-/

set_option autoImplicit false
set_option relaxedAutoImplicit false

namespace MiniPascal

namespace Recogniser

def Apart (r r' : Recogniser) : Prop :=
  ∀ (text : List Char) (m n : Match text), r text = some m → r' text = some n → m.length ≠ n.length

private theorem Apart.symm {r r' : Recogniser} (h : Apart r r') : Apart r' r :=
  fun text m n hm hn => (h text n m hn hm).symm

section Kinds

variable {text : List Char}

private theorem kind_of_mark {m : Mark} {n : Match text} (h : mark m text = some n) :
    n.kind = .mark m := by
  unfold mark at h
  split at h
  · cases h
    rfl
  · cases h

private theorem kind_of_word {n : Match text} (h : word text = some n) :
    (∃ w, n.kind = .reserved w) ∨ ∃ name, n.kind = .identifier name := by
  unfold word at h
  split at h
  · cases h
  · split at h
    · cases h
      simp only [kindOfWord]
      split
      · exact .inl ⟨_, rfl⟩
      · exact .inr ⟨_, rfl⟩
    · cases h

private theorem kind_of_number {n : Match text} (h : number text = some n) : n.kind.Numeric := by
  unfold number at h
  simp only at h
  split at h
  · obtain ⟨kind, hkind, rfl⟩ := Option.map_eq_some_iff.mp h
    unfold Numeral.kind? at hkind
    split at hkind
    · obtain ⟨i, -, rfl⟩ := Option.map_eq_some_iff.mp hkind
      trivial
    · obtain ⟨-, hreal⟩ := Option.ite_none_right_eq_some.mp hkind
      obtain rfl := Option.some.inj hreal
      trivial
  · cases h

end Kinds

/-- Classes of different kinds are apart: offers of one length are one lexeme, which has one
kind. -/
private theorem apart_of_kinds {r r' : Recogniser} (hr : r ∈ all) (hr' : r' ∈ all)
    (kinds : ∀ (text : List Char) (m n : Match text), r text = some m → r' text = some n →
      m.kind ≠ n.kind) : Apart r r' := by
  intro text m n hm hn same
  obtain ⟨spells, -⟩ := offers_of_recogniser hr hm
  obtain ⟨spells', -⟩ := offers_of_recogniser hr' hn
  rw [← same] at spells'
  exact kinds text m n hm hn (spells.kind_eq spells')

private theorem mark_mem_all (m : Mark) : mark m ∈ all :=
  List.mem_append_left _ (List.mem_map_of_mem m.mem_all)

private theorem all_apart : all.Pairwise Apart := by
  have words : word ∈ all := by simp [all]
  have numbers : number ∈ all := by simp [all]
  refine List.pairwise_append.mpr ⟨List.pairwise_map.mpr ?_, ?_, ?_⟩
  · have distinct : Mark.all.Pairwise (· ≠ ·) := by decide
    refine distinct.imp fun {m m'} hne => ?_
    refine apart_of_kinds (mark_mem_all m) (mark_mem_all m') ?_
    intro text n n' hn hn' hkind
    rw [kind_of_mark hn, kind_of_mark hn'] at hkind
    exact hne (TokenKind.mark.inj hkind)
  · refine List.pairwise_pair.mpr (apart_of_kinds words numbers ?_)
    intro text n n' hn hn' hkind
    have numeric := kind_of_number hn'
    rw [← hkind] at numeric
    rcases kind_of_word hn with ⟨w, hw⟩ | ⟨name, hw⟩ <;> simp [hw, TokenKind.Numeric] at numeric
  · intro r hr r' hr'
    obtain ⟨m, -, rfl⟩ := List.mem_map.mp hr
    rcases List.mem_cons.mp hr' with rfl | hr'
    · refine apart_of_kinds (mark_mem_all m) words ?_
      intro text n n' hn hn' hkind
      rw [kind_of_mark hn] at hkind
      rcases kind_of_word hn' with ⟨w, hw⟩ | ⟨name, hw⟩ <;> simp [hw] at hkind
    · obtain rfl := List.mem_singleton.mp hr'
      refine apart_of_kinds (mark_mem_all m) numbers ?_
      intro text n n' hn hn' hkind
      have numeric := kind_of_number hn'
      rw [← hkind, kind_of_mark hn] at numeric
      exact numeric

/-- The longer of two offers; of equally long ones the first. -/
def longer {text : List Char} (m n : Match text) : Match text :=
  if m.length < n.length then n else m

private theorem longest_cons (text : List Char) (r : Recogniser) (rs : List Recogniser) :
    longest text (r :: rs) = Option.merge longer (r text) (longest text rs) := by
  simp only [longest]
  cases r text with
  | none => cases longest text rs <;> rfl
  | some m =>
    cases longest text rs with
    | none => rfl
    | some n => exact (apply_ite some _ _ _).symm

section Longer

variable {text : List Char} {m n : Match text}

private theorem longer_comm (h : m.length ≠ n.length) : longer m n = longer n m := by
  unfold longer
  split <;> split <;> first | rfl | omega

private theorem longer_left_comm (h : m.length ≠ n.length) (k : Match text) :
    longer m (longer n k) = longer n (longer m k) := by
  unfold longer
  grind

end Longer

/-- Among classes that are pairwise apart the longest offer does not depend on their order. -/
private theorem longest_perm {rs rs' : List Recogniser} (h : rs.Perm rs')
    (apart : rs.Pairwise Apart) (text : List Char) : longest text rs = longest text rs' := by
  induction h with
  | nil => rfl
  | cons r _ ih => simp only [longest_cons, ih apart.of_cons]
  | swap r r' rs =>
    have hlength : Apart r' r := List.rel_of_pairwise_cons apart List.mem_cons_self
    simp only [longest_cons]
    cases hr : r text with
    | none => cases r' text <;> cases longest text rs <;> rfl
    | some m =>
      cases hr' : r' text with
      | none => cases longest text rs <;> rfl
      | some n =>
        have hne := hlength text n m hr' hr
        cases longest text rs with
        | none => exact congrArg some (longer_comm hne)
        | some k => exact congrArg some (longer_left_comm hne k)
  | trans h _ ih ih' => rw [ih apart, ih' (h.pairwise apart Apart.symm)]

end Recogniser

/-- No two token classes ever offer equally much, so the scanner does the same, at every place of
every text, in whatever order it asks them. -/
theorem Scanner.nextBy_of_perm {classes : List Recogniser} (h : classes.Perm Recogniser.all) :
    classes.Pairwise Recogniser.Apart ∧ ∀ s : Scanner, s.nextBy classes = s.next := by
  have apart : classes.Pairwise Recogniser.Apart :=
    h.symm.pairwise Recogniser.all_apart Recogniser.Apart.symm
  refine ⟨apart, fun s => ?_⟩
  unfold Scanner.next Scanner.nextBy
  cases s.skip with
  | unclosed opening finish => rfl
  | clear after => simp only [Scanner.take, Recogniser.longest_perm h apart]

/-- Asked from the last class to the first, the scanner still reads a colon with an equals sign
behind it as one symbol, and takes a point with a digit behind it into a number. -/
theorem Scanner.nextBy_reverse :
    (Recogniser.all.reverse.Pairwise Recogniser.Apart ∧
      ∀ s : Scanner, s.nextBy Recogniser.all.reverse = s.next) ∧
    (Scanner.ofString ":=.5").next.1.toOption.map Token.kind = some (.mark .assign) ∧
    (Scanner.ofString ".5").next.1.toOption.map Token.lexeme = some ".5" :=
  ⟨Scanner.nextBy_of_perm (List.reverse_perm _), by decide +kernel, by decide +kernel⟩

end MiniPascal
