import MiniPascal.Proofs.Source.Place

/-!
When joining stretches covers them. Joining looks at where its operands start and takes it that what
starts last ends last. Where this is so, the joined stretch is the smallest one that holds both, in
whatever order and grouping more of them are joined; where it is not, the end of one of them is
lost. `Span.join_covers` says which stretches are covered.
-/

set_option autoImplicit false
set_option relaxedAutoImplicit false

namespace MiniPascal

namespace Position

def earlier (p q : Position) : Position := if p ≤ q then p else q

def later (p q : Position) : Position := if p ≤ q then q else p

end Position

namespace Span

def Within (a b : Span) : Prop := b.start ≤ a.start ∧ a.finish ≤ b.finish

/-- The smallest stretch that holds all of these. -/
structure Covers (c : Span) (spans : List Span) : Prop where
  holds : ∀ a ∈ spans, a.Within c
  least : ∀ d : Span, (∀ a ∈ spans, a.Within d) → c.Within d

/-- What starts last ends last. Of two stretches that start together the right one counts as
last. -/
def InStep (a b : Span) : Prop :=
  if a.start ≤ b.start then a.finish ≤ b.finish else b.finish ≤ a.finish

instance (a b : Span) : Decidable (a.InStep b) :=
  inferInstanceAs (Decidable (if a.start ≤ b.start then _ else _))

end Span

/-- Stretches, one at least, and the order and the grouping in which they are joined. -/
inductive Grouping
  | one (a : Span)
  | both (left right : Grouping)

namespace Grouping

def spans : Grouping → List Span
  | one a => [a]
  | both left right => left.spans ++ right.spans

def joined : Grouping → Span
  | one a => a
  | both left right => left.joined.join right.joined

/-- Whatever is joined is in step. -/
def InStep : Grouping → Prop
  | one _ => True
  | both left right => left.InStep ∧ right.InStep ∧ left.joined.InStep right.joined

private theorem spans_ne_nil : (g : Grouping) → g.spans ≠ []
  | one _ => List.cons_ne_nil _ _
  | both left _ => List.append_ne_nil_of_left_ne_nil left.spans_ne_nil _

end Grouping

namespace Span

variable {a b c d : Span} {as bs : List Span}

private theorem Within.antisymm (h : a.Within b) (h' : b.Within a) : a = b := by
  obtain ⟨start, finish⟩ := a
  obtain ⟨start', finish'⟩ := b
  obtain rfl : start = start' := Position.le_antisymm h'.1 h.1
  obtain rfl : finish = finish' := Position.le_antisymm h.2 h'.2
  rfl

private theorem Covers.eq (h : c.Covers as) (h' : d.Covers bs) (same : as.Perm bs) : c = d := by
  refine Within.antisymm (h.least d ?_) (h'.least c ?_)
  · intro a ha
    exact h'.holds a (same.mem_iff.mp ha)
  · intro b hb
    exact h.holds b (same.mem_iff.mpr hb)

private theorem join_start (a b : Span) : (a.join b).start = a.start.earlier b.start := by
  unfold join Position.earlier
  split <;> rfl

private theorem join_finish_iff : (a.join b).finish = a.finish.later b.finish ↔ a.InStep b := by
  unfold join Position.later InStep
  split
  · split
    · rename_i hle
      exact iff_of_true rfl hle
    · rename_i hnot
      refine ⟨fun heq => ?_, fun hle => absurd hle hnot⟩
      rw [show b.finish = a.finish from heq]
      exact a.finish.le_refl
  · split
    · rename_i hle
      refine ⟨fun heq => ?_, fun hle' => Position.le_antisymm hle hle'⟩
      rw [show a.finish = b.finish from heq]
      exact b.finish.le_refl
    · rename_i hnot
      exact iff_of_true rfl (Position.le_of_not_le hnot)

private theorem join_start_le (a b : Span) :
    (a.join b).start ≤ a.start ∧ (a.join b).start ≤ b.start := by
  unfold join
  split
  · rename_i hstart
    exact ⟨a.start.le_refl, hstart⟩
  · rename_i hstart
    exact ⟨Position.le_of_not_le hstart, b.start.le_refl⟩

private theorem join_within (ha : a.Within d) (hb : b.Within d) : (a.join b).Within d := by
  unfold join
  split
  · exact ⟨ha.1, hb.2⟩
  · exact ⟨hb.1, ha.2⟩

private theorem inStep_iff :
    a.InStep b ↔ a.finish ≤ (a.join b).finish ∧ b.finish ≤ (a.join b).finish := by
  unfold InStep join
  split
  · exact ⟨fun h => ⟨h, b.finish.le_refl⟩, And.left⟩
  · exact ⟨fun h => ⟨a.finish.le_refl, h⟩, And.right⟩

private theorem join_comm_iff : a.join b = b.join a ↔ a.start ≠ b.start ∨ a.finish = b.finish := by
  by_cases hstart : a.start = b.start
  · have left : a.join b = ⟨a.start, b.finish⟩ := if_pos (hstart ▸ a.start.le_refl)
    have right : b.join a = ⟨b.start, a.finish⟩ := if_pos (hstart ▸ b.start.le_refl)
    rw [left, right, hstart]
    simp [eq_comm]
  · simp only [ne_eq, hstart, not_false_eq_true, true_or, iff_true]
    unfold join
    split <;> rename_i hle
    · have hnot : ¬ b.start ≤ a.start := fun hle' => hstart (Position.le_antisymm hle hle')
      rw [if_neg hnot]
    · rw [if_pos (Position.le_of_not_le hle)]

private theorem join_self (a : Span) : a.join a = a := if_pos a.start.le_refl

end Span

namespace Grouping

private theorem joined_start_le (g : Grouping) : ∀ a ∈ g.spans, g.joined.start ≤ a.start := by
  induction g with
  | one a =>
    intro b hb
    rw [List.mem_singleton.mp hb]
    exact a.start.le_refl
  | both left right ihl ihr =>
    obtain ⟨first, second⟩ := Span.join_start_le left.joined right.joined
    intro a ha
    rcases List.mem_append.mp ha with ha | ha
    · exact Position.le_trans first (ihl a ha)
    · exact Position.le_trans second (ihr a ha)

private theorem joined_within (g : Grouping) {d : Span} (h : ∀ a ∈ g.spans, a.Within d) :
    g.joined.Within d := by
  induction g with
  | one a => exact h a List.mem_cons_self
  | both left right ihl ihr =>
    exact Span.join_within (ihl fun a ha => h a (List.mem_append_left _ ha))
      (ihr fun a ha => h a (List.mem_append_right _ ha))

private theorem covers_iff (g : Grouping) :
    g.joined.Covers g.spans ↔ ∀ a ∈ g.spans, a.finish ≤ g.joined.finish :=
  ⟨fun h a ha => (h.holds a ha).2,
    fun h => ⟨fun a ha => ⟨g.joined_start_le a ha, h a ha⟩, fun _ hd => g.joined_within hd⟩⟩

private theorem covers_of_inStep {g : Grouping} (h : g.InStep) : g.joined.Covers g.spans := by
  rw [covers_iff]
  induction g with
  | one a =>
    intro b hb
    rw [List.mem_singleton.mp hb]
    exact a.finish.le_refl
  | both left right ihl ihr =>
    obtain ⟨hl, hr, hstep⟩ := h
    obtain ⟨first, second⟩ := Span.inStep_iff.mp hstep
    intro a ha
    rcases List.mem_append.mp ha with ha | ha
    · exact Position.le_trans (ihl hl a ha) first
    · exact Position.le_trans (ihr hr a ha) second

/-- If the stretches start one behind the other, then the first start and the last end are joined,
wherever the others end. -/
private theorem joined_of_ordered {g : Grouping}
    (h : g.spans.Pairwise fun a b => a.start ≤ b.start) :
    g.joined = ⟨(g.spans.head g.spans_ne_nil).start, (g.spans.getLast g.spans_ne_nil).finish⟩ := by
  induction g with
  | one a => rfl
  | both left right ihl ihr =>
    obtain ⟨hl, hr, hacross⟩ := List.pairwise_append.mp h
    have first := hacross _ (List.head_mem left.spans_ne_nil) _ (List.head_mem right.spans_ne_nil)
    simp only [spans, joined, ihl hl, ihr hr, Span.join]
    rw [if_pos first, List.head_append_of_ne_nil left.spans_ne_nil,
      List.getLast_append_of_ne_nil _ right.spans_ne_nil]

end Grouping

private theorem Span.covers_pair_iff {a b : Span} : (a.join b).Covers [a, b] ↔ a.InStep b := by
  have pair := (Grouping.both (.one a) (.one b)).covers_iff
  simpa [Grouping.spans, Grouping.joined, inStep_iff] using pair

/-- When stretches are covered. Of two stretches the joined one starts with the one that starts
first; it ends with the one that ends last, and is the smallest one that holds both, just when they
are in step. The order of the two matters only if they start together, and joining a stretch to
itself changes nothing. However many are joined, they are covered just when none of them ends behind
the joined one; this is so if whatever is joined is in step, and if they start one behind the other
it depends on the end of the last one only. Covered in two orders and groupings, the same stretches
are joined to the same one. -/
theorem Span.join_covers (a b : Span) (g g' : Grouping) :
    ((a.join b).start = a.start.earlier b.start ∧
      ((a.join b).finish = a.finish.later b.finish ↔ a.InStep b) ∧
      ((a.join b).Covers [a, b] ↔ a.InStep b) ∧
      (a.join b = b.join a ↔ a.start ≠ b.start ∨ a.finish = b.finish) ∧ a.join a = a) ∧
    (g.joined.Covers g.spans ↔ ∀ c ∈ g.spans, c.finish ≤ g.joined.finish) ∧
    (g.InStep → g.joined.Covers g.spans) ∧
    (g.spans.Pairwise (fun c d => c.start ≤ d.start) → g.joined =
      ⟨(g.spans.head g.spans_ne_nil).start, (g.spans.getLast g.spans_ne_nil).finish⟩) ∧
    (g.joined.Covers g.spans → g'.joined.Covers g'.spans → g.spans.Perm g'.spans →
      g.joined = g'.joined) :=
  ⟨⟨join_start a b, join_finish_iff, covers_pair_iff, join_comm_iff, join_self a⟩,
    g.covers_iff, Grouping.covers_of_inStep, Grouping.joined_of_ordered, Covers.eq⟩

/-- Three words of a line are joined in step from left to right, and from right to left. -/
theorem Span.words_covered :
    let x : Span := ⟨⟨1, 1⟩, ⟨1, 3⟩⟩
    let y : Span := ⟨⟨1, 4⟩, ⟨1, 6⟩⟩
    let z : Span := ⟨⟨1, 7⟩, ⟨1, 9⟩⟩
    let g : Grouping := .both (.both (.one x) (.one y)) (.one z)
    let g' : Grouping := .both (.both (.one z) (.one y)) (.one x)
    (x.InStep z ∧ (x.join z).Covers [x, z]) ∧ (g.InStep ∧ g.joined.Covers g.spans) ∧
    (g'.InStep ∧ g'.joined.Covers g'.spans) ∧ g.spans.Perm g'.spans ∧ g.joined = g'.joined ∧
    g.spans.Pairwise (fun c d => c.start ≤ d.start) ∧ g.joined = ⟨⟨1, 1⟩, ⟨1, 9⟩⟩ := by
  intro x y z g g'
  obtain ⟨⟨-, -, hpair, -⟩, -, hstep, hordered, hsame⟩ := Span.join_covers x z g g'
  obtain ⟨-, -, hstep', -⟩ := Span.join_covers x z g' g
  have pair : x.InStep z := by decide
  have step : g.InStep := ⟨⟨trivial, trivial, by decide⟩, trivial, by decide⟩
  have step' : g'.InStep := ⟨⟨trivial, trivial, by decide⟩, trivial, by decide⟩
  have same : g.spans.Perm g'.spans := by decide
  have ordered : g.spans.Pairwise (fun c d => c.start ≤ d.start) := by decide
  exact ⟨⟨pair, hpair.mpr pair⟩, ⟨step, hstep step⟩, ⟨step', hstep' step'⟩, same,
    hsame (hstep step) (hstep' step') same, ordered, hordered ordered⟩

/-- A stretch within another one is joined to less than the other one. Two stretches that start
together are joined to the one on the right. And three words of a line, one behind the other, are
not covered when the second one is joined last. -/
theorem Span.nested_not_covered :
    let a : Span := ⟨⟨1, 1⟩, ⟨1, 10⟩⟩
    let b : Span := ⟨⟨1, 2⟩, ⟨1, 3⟩⟩
    let x : Span := ⟨⟨1, 1⟩, ⟨1, 3⟩⟩
    let y : Span := ⟨⟨1, 4⟩, ⟨1, 6⟩⟩
    let z : Span := ⟨⟨1, 7⟩, ⟨1, 9⟩⟩
    (∀ s ∈ [a, b, x, y, z], s.start ≤ s.finish) ∧
    a.join b = ⟨⟨1, 1⟩, ⟨1, 3⟩⟩ ∧ ¬ a.Within (a.join b) ∧ ¬ (a.join b).Covers [a, b] ∧
    a.join x ≠ x.join a ∧
    (x.join z).join y = ⟨⟨1, 1⟩, ⟨1, 6⟩⟩ ∧ (x.join z).join y ≠ x.join (z.join y) := by
  intro a b x y z
  have outside : ¬ a.Within (a.join b) := fun h => absurd h.2 (by decide)
  refine ⟨by decide, by decide, outside, ?_, by decide, by decide, by decide⟩
  intro covers
  exact outside (covers.holds a List.mem_cons_self)

end MiniPascal
