import MiniPascal.Proofs.Grammar.Pinpointing
import MiniPascal.Proofs.Grammar.Recognition
import MiniPascal.Proofs.Grammar.RuleAgreement

/-!
How the stack of open rules fares while a text is read: it is put back as it was by every rule, it
does not grow past a fixed size, and an error is made with the stack as its context.
`Stacked.always_disciplined` says so of programs and of expressions.
-/

set_option autoImplicit false
set_option relaxedAutoImplicit false

namespace MiniPascal

/-- From an empty stack to an empty stack, with every rule in its place: from the first one on each
is called by the one before it, there are never more than so many of them, and none that looks at
the depth succeeds past the limit. -/
structure Outcome.Disciplined {α : Type} (first : Rule) (bound : Nat) (o : Outcome α) : Prop where
  emptied : o.stack = []
  restores : Restores [] o.course
  bounded : ∀ moment ∈ o.course, moment.stack.length ≤ bound
  chained : ∀ stack, .opened stack ∈ o.course →
    stack.reverse.head? = some first ∧ stack.reverse.IsChain Rule.Calls
  shallow : ∀ r stack, .closed r stack true ∈ o.course → r.limited = true →
    (r :: stack).length ≤ Rule.limit
  context : ∀ stack m, .refused stack m ∈ o.course → m.context = stack.reverse

/-- The context is a chain of rules of which each one calls the next, and an error about the depth
has one of a size just past the limit, with a rule at its end that looks at the depth. -/
structure Misplaced.Nested (first : Rule) (bound : Nat) (m : Misplaced) : Prop where
  first : m.context.head? = some first
  chain : m.context.IsChain Rule.Calls
  deep : m.expected = .shallower → Rule.limit < m.context.length ∧ m.context.length ≤ bound ∧
    ∃ r, m.context.getLast? = some r ∧ r.limited = true

section Bounds

variable {α : Type} {scope : List Rule → Prop} {first : Rule} {stack : List Rule} {bound : Nat}
  {o : Outcome α} {reply : Reply α} {m : Misplaced}

private theorem Moment.Allowed.length_le {moment : Moment} (h : moment.Allowed scope)
    (hbound : ∀ stack, scope stack → stack.length ≤ bound) : moment.stack.length ≤ bound := by
  cases h with
  | opened inScope => exact hbound _ inScope
  | closed inScope => exact Nat.le_of_succ_le (hbound _ inScope)
  | refused inScope => exact hbound _ inScope

private theorem Outcome.Keeps.disciplined (h : o.Keeps scope [] reply)
    (hopen : ∀ r stack, scope (r :: stack) → Rule.Open first (r :: stack))
    (hbound : ∀ stack, scope stack → stack.length ≤ bound) : o.Disciplined first bound where
  emptied := h.stack_eq
  restores := h.restores
  bounded moment hmem := (h.allowed moment hmem).length_le hbound
  chained stack hmem := by
    cases h.allowed _ hmem with
    | opened inScope =>
      have isOpen := hopen _ _ inScope
      exact ⟨isOpen.head?_reverse, isOpen.isChain_reverse⟩
  shallow r stack hmem hlimited := by
    cases h.allowed _ hmem with
    | closed _ shallow => exact Rule.length_le_of_not_tooDeep (shallow rfl) hlimited
  context stack m hmem := by
    cases h.allowed _ hmem with
    | refused _ context => exact context

private theorem Outcome.Keeps.refused {rest : Feed} (h : o.Keeps scope stack reply)
    (herror : reply = .error (.misplaced m) rest) :
    .refused m.context.reverse m ∈ o.course ∧ scope m.context.reverse ∧
      (m.expected = .shallower → Rule.TooDeep m.context.reverse) := by
  have hmem := h.blamed m rest (h.reply_eq.trans (congrArg Reply.fetched herror))
  cases h.allowed _ hmem with
  | refused inScope _ deep => exact ⟨hmem, inScope, deep⟩

private theorem Misplaced.Nested.of_open (isOpen : Rule.Open first m.context.reverse)
    (deep : m.expected = .shallower → Rule.TooDeep m.context.reverse)
    (hbound : m.context.reverse.length ≤ bound) : m.Nested first bound := by
  have hfirst := isOpen.head?_reverse
  have hchain := isOpen.isChain_reverse
  rw [List.reverse_reverse] at hfirst hchain
  refine ⟨hfirst, hchain, fun hexpected => ?_⟩
  have hdeep := deep hexpected
  rw [← List.head?_reverse, ← List.length_reverse]
  cases hstack : m.context.reverse with
  | nil => exact absurd hstack isOpen.ne_nil
  | cons r below =>
    rw [hstack] at hdeep hbound
    exact ⟨hdeep.2, hbound, r, rfl, hdeep.1⟩

private theorem Outcome.Keeps.toExcept_eq (h : o.Keeps scope stack reply)
    (hok : ∀ a rest, reply = .ok a rest → rest.fault? = none) :
    o.reply.toExcept = reply.toExcept := by
  rw [h.reply_eq]
  cases reply with
  | ok a rest => rw [Reply.fetched_ok (hok a rest rfl)]
  | error e rest => rfl

end Bounds

namespace Parse

variable {feed rest : Feed} {rules : List Rule} {m : Misplaced}

private theorem run_expect_misplaced {k : TokenKind}
    (h : (expect rules k).run feed = .error (.misplaced m) rest) :
    rest = feed ∧ feed.front? = some m.found ∧ m.found.kind ≠ k ∧ m.expected = .token k ∧
      m.context = rules.reverse := by
  cases hfeed : feed.fault? with
  | some e =>
    obtain rfl := Feed.eq_of_fault? hfeed
    cases h
  | none =>
    obtain ⟨t, ht⟩ := Feed.exists_front_of_fault? hfeed
    have hcurrent : current.run feed = .ok t feed := run_current_eq_ok.mpr ⟨ht, rfl⟩
    rw [expect, run_bind, hcurrent] at h
    dsimp only at h
    split at h
    · cases h
    · rename_i hkind
      rw [refuse, run_bind, hcurrent] at h
      cases h
      exact ⟨rfl, ht, hkind, rfl, rfl⟩

private theorem run_loneExpr_misplaced (h : loneExpr.run feed = .error (.misplaced m) rest) :
    (expr []).run feed = .error (.misplaced m) rest ∨
      ∃ e, (expr []).run feed = .ok e rest ∧ rest.front? = some m.found ∧
        m.found.kind ≠ .endOfInput ∧ m.expected = .token .endOfInput ∧ m.context = [] := by
  rw [loneExpr, run_bind] at h
  cases hexpr : (expr []).run feed with
  | error e mid =>
    rw [hexpr] at h
    exact .inl h
  | ok e mid =>
    rw [hexpr] at h
    dsimp only at h
    rw [run_bind] at h
    cases hend : (expect [] .endOfInput).run mid with
    | ok _ mid' =>
      rw [hend] at h
      cases h
    | error _ mid' =>
      rw [hend] at h
      cases h
      obtain ⟨rfl, hfound⟩ := run_expect_misplaced hend
      exact .inr ⟨e, rfl, hfound⟩

end Parse

namespace Stacked

private theorem context_eq_nil_iff {feed rest : Feed} {m : Misplaced}
    (h : Parse.loneExpr.run feed = .error (.misplaced m) rest) :
    m.context = [] ↔ ∃ e rest, (Parse.expr []).run feed = .ok e rest ∧
      rest.front? = some m.found ∧ m.found.kind ≠ .endOfInput ∧
      m.expected = .token .endOfInput := by
  rcases Parse.run_loneExpr_misplaced h with hexpr | ⟨e, hexpr, hfront, hkind, hexpected, hnil⟩
  · have isOpen := ((keeps_expr feed).refused hexpr).2.1
    constructor
    · intro hnil
      exact absurd (List.reverse_eq_nil_iff.mpr hnil) isOpen.ne_nil
    · rintro ⟨e, mid, hok, -⟩
      rw [hok] at hexpr
      cases hexpr
  · exact ⟨fun _ => ⟨e, rest, hexpr, hfront, hkind, hexpected⟩, fun _ => hnil⟩

/-- While a text is read, every rule leaves the stack as it found it. No more than 516 rules are
open at a time, 515 in an expression, and no rule that looks at the depth succeeds past the limit.
An error is made with the open rules as its context, from the first one on; the context is empty for
a token that is left over behind an expression, and for no other. -/
theorem always_disciplined (source : String) :
    ((programOfString source).reply.toExcept = Program.ofString source ∧
      (programOfString source).Disciplined .program 516 ∧
      ∀ m, Program.ofString source = .error (.misplaced m) →
        .refused m.context.reverse m ∈ (programOfString source).course ∧
          m.Nested .program 516) ∧
    (exprOfString source).reply.toExcept = Expr.ofString source ∧
      (exprOfString source).Disciplined .expr 515 ∧
      ∀ m, Expr.ofString source = .error (.misplaced m) →
        .refused m.context.reverse m ∈ (exprOfString source).course ∧
          (m.context ≠ [] → m.Nested .expr 515) ∧
          (m.context = [] ↔ ∃ e rest,
            (Parse.expr []).run (Feed.ofString source) = .ok e rest ∧
              rest.front? = some m.found ∧ m.found.kind ≠ .endOfInput ∧
              m.expected = .token .endOfInput) := by
  have hends := Feed.kind_ne_endOfInput_of_mem (.ofString source)
  constructor
  · have hkeeps := keeps_program (Feed.ofString source)
    refine ⟨hkeeps.toExcept_eq ?_, hkeeps.disciplined (fun _ _ => id) ?_, ?_⟩
    · intro p rest hrun
      obtain ⟨-, -, -, -, q, rfl⟩ := (Parse.run_program_eq_ok hends).mp hrun
      rfl
    · exact fun stack isOpen => isOpen.length_le_of_program
    · intro m hm
      obtain ⟨rest, hrun⟩ := Program.ofString_eq_error_iff.mp hm
      obtain ⟨hmem, isOpen, deep⟩ := hkeeps.refused hrun
      exact ⟨hmem, .of_open isOpen deep isOpen.length_le_of_program⟩
  · have hkeeps := keeps_loneExpr (Feed.ofString source)
    refine ⟨hkeeps.toExcept_eq ?_, hkeeps.disciplined ?_ ?_, ?_⟩
    · intro e rest hrun
      obtain ⟨-, -, -, -, q, rfl⟩ := (Parse.run_loneExpr_eq_ok hends).mp hrun
      rfl
    · exact fun r stack hopen => hopen.resolve_left (List.cons_ne_nil r stack)
    · rintro stack (rfl | isOpen)
      · exact Nat.zero_le _
      · exact isOpen.length_le_of_expr
    · intro m hm
      obtain ⟨rest, hrun⟩ := Expr.ofString_eq_error_iff.mp hm
      obtain ⟨hmem, hopen, deep⟩ := hkeeps.refused hrun
      refine ⟨hmem, fun hne => ?_, context_eq_nil_iff hrun⟩
      have isOpen := hopen.resolve_left (List.reverse_eq_nil_iff.not.mpr hne)
      exact .of_open isOpen deep isOpen.length_le_of_expr

end Stacked

end MiniPascal
