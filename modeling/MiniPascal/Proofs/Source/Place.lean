import Mathlib.Data.List.Induction
import MiniPascal.Source.Position

/-!
The place at an offset of a text in closed form, and the order of places. `ofOffset_length` says
that walking over a text leads to the place at its end, and `ofOffset_lt` that later offsets have
later places.
-/

set_option autoImplicit false
set_option relaxedAutoImplicit false

namespace MiniPascal

namespace Position

/-- The place at an offset of a text. Its line is one more than the line feeds before it, its column
one more than the characters since the last of these or since the beginning of the text. -/
def ofOffset (text : List Char) (offset : Nat) : Position :=
  let before := text.take offset
  ⟨1 + before.count '\n', 1 + (before.reverse.takeWhile (· ≠ '\n')).length⟩

instance : LT Position := ⟨fun p q => p ≤ q ∧ ¬ q ≤ p⟩

private theorem lt_iff {p q : Position} :
    p < q ↔ p.line < q.line ∨ (p.line = q.line ∧ p.column < q.column) := by
  show p ≤ q ∧ ¬ q ≤ p ↔ _
  simp only [le_iff]
  omega

protected theorem le_refl (p : Position) : p ≤ p :=
  le_iff.mpr (.inr ⟨rfl, Nat.le_refl _⟩)

protected theorem le_of_lt {p q : Position} (h : p < q) : p ≤ q := h.1

protected theorem le_trans {p q r : Position} (h : p ≤ q) (h' : q ≤ r) : p ≤ r := by
  simp only [le_iff] at h h' ⊢
  omega

protected theorem le_antisymm {p q : Position} (h : p ≤ q) (h' : q ≤ p) : p = q := by
  obtain ⟨line, column⟩ := p
  obtain ⟨line', column'⟩ := q
  simp only [le_iff, mk.injEq] at h h' ⊢
  omega

protected theorem le_of_not_le {p q : Position} (h : ¬ p ≤ q) : q ≤ p := by
  simp only [le_iff] at h ⊢
  omega

protected theorem lt_of_lt_of_le {p q r : Position} (h : p < q) (h' : q ≤ r) : p < r := by
  simp only [le_iff, lt_iff] at h h' ⊢
  omega

protected theorem lt_irrefl (p : Position) : ¬ p < p := fun h => h.2 h.1

private theorem lt_advance (p : Position) (c : Char) : p < p.advance c := by
  rw [lt_iff, advance]
  split
  · exact .inl (Nat.lt_succ_self _)
  · exact .inr ⟨rfl, Nat.lt_succ_self _⟩

theorem le_advanceOver (p : Position) (text : List Char) : p ≤ p.advanceOver text := by
  induction text generalizing p with
  | nil => exact p.le_refl
  | cons c cs ih => exact Position.le_trans (Position.le_of_lt (p.lt_advance c)) (ih _)

private theorem lt_advanceOver (p : Position) {text : List Char} (h : text ≠ []) :
    p < p.advanceOver text := by
  obtain ⟨c, cs, rfl⟩ := List.exists_cons_of_ne_nil h
  exact Position.lt_of_lt_of_le (p.lt_advance c) (le_advanceOver _ cs)

/-- Walking over a text leads to the place at its end. -/
theorem ofOffset_length (text : List Char) :
    ofOffset text text.length = start.advanceOver text := by
  induction text using List.reverseRecOn with
  | nil => rfl
  | append_singleton cs c ih =>
    rw [advanceOver_append, ← ih]
    simp only [ofOffset, List.take_length, advanceOver_cons, advanceOver_nil, advance,
      List.count_append, List.reverse_append, List.reverse_singleton, List.singleton_append]
    by_cases hc : c = '\n'
    · simp [hc, Nat.add_assoc]
    · simp [hc, Nat.add_comm]

example : ofOffset ['a', '\n', 'b', 'c'] 3 = ⟨2, 2⟩ := by decide

theorem ofOffset_append (front back : List Char) :
    ofOffset (front ++ back) front.length = start.advanceOver front := by
  have htake : (front ++ back).take front.length = front.take front.length := by simp
  rw [← ofOffset_length, ofOffset, ofOffset, htake]

variable {text : List Char} {a b : Nat}

private theorem ofOffset_eq_advanceOver (h : a ≤ b) (hb : b ≤ text.length) :
    ofOffset text b = (ofOffset text a).advanceOver ((text.take b).drop a) := by
  have walk (o : Nat) (ho : o ≤ text.length) :
      ofOffset text o = start.advanceOver (text.take o) := by
    have hlength : (text.take o).length = o := List.length_take_of_le ho
    have happend := ofOffset_append (text.take o) (text.drop o)
    rwa [List.take_append_drop, hlength] at happend
  have split : text.take a ++ (text.take b).drop a = text.take b := by
    conv_rhs => rw [← List.take_append_drop a (text.take b), List.take_take, Nat.min_eq_left h]
  rw [walk b hb, walk a (Nat.le_trans h hb), ← advanceOver_append, split]

theorem ofOffset_le (h : a ≤ b) (hb : b ≤ text.length) : ofOffset text a ≤ ofOffset text b := by
  rw [ofOffset_eq_advanceOver h hb]
  exact le_advanceOver _ _

theorem ofOffset_lt (h : a < b) (hb : b ≤ text.length) : ofOffset text a < ofOffset text b := by
  rw [ofOffset_eq_advanceOver (Nat.le_of_lt h) hb]
  apply lt_advanceOver
  apply List.ne_nil_of_length_pos
  simp only [List.length_drop, List.length_take]
  omega

end Position

namespace Span

def ofOffsets (text : List Char) (a b : Nat) : Span :=
  ⟨.ofOffset text a, .ofOffset text b⟩

theorem join_point_advanceOver (p : Position) (text : List Char) :
    join (.point p) (.point (p.advanceOver text)) = ⟨p, p.advanceOver text⟩ :=
  if_pos (p.le_advanceOver text)

end Span

end MiniPascal
