import MiniPascal.Grammar.Rule
import MiniPascal.Token.Feed

/-!
Steps of reading. A step looks at the tokens of a feed, takes some of them off its front and
replies with a result or an error; that it can only take tokens off is part of what a step is, and
it is why repeating one comes to an end.
-/

set_option autoImplicit false
set_option relaxedAutoImplicit false

namespace MiniPascal

namespace Feed

/-- What is left after some tokens have been taken off the front. -/
def Behind (rest feed : Feed) : Prop :=
  rest.tokens <:+ feed.tokens ∧ rest.ending = feed.ending

theorem Behind.refl (feed : Feed) : feed.Behind feed := ⟨List.suffix_refl _, rfl⟩

private theorem Behind.trans {a b c : Feed} (h : a.Behind b) (h' : b.Behind c) : a.Behind c :=
  ⟨h.1.trans h'.1, h.2.trans h'.2⟩

private theorem Behind.tail {rest feed : Feed} {t : Token} {ts : List Token}
    (ht : feed.tokens = t :: ts) (h : rest.Behind ⟨ts, feed.ending⟩) : rest.Behind feed :=
  ⟨h.1.trans (ht ▸ List.suffix_cons t ts), h.2⟩

end Feed

/-- A result or an error, and the feed as it was left. -/
inductive Reply (α : Type)
  | ok (value : α) (rest : Feed)
  | error (e : ParseError) (rest : Feed)

namespace Reply

def rest {α : Type} : Reply α → Feed
  | .ok _ rest | .error _ rest => rest

def toExcept {α : Type} : Reply α → Except ParseError α
  | .ok value _ => .ok value
  | .error e _ => .error e

end Reply

structure Parse (α : Type) where
  run : Feed → Reply α
  behind : ∀ feed, (run feed).rest.Behind feed

namespace Parse

variable {α β γ : Type}

protected def pure (a : α) : Parse α := ⟨fun feed => .ok a feed, Feed.Behind.refl⟩

/-- The second step goes on where the first one left off; an error ends both. -/
protected def bind (p : Parse α) (f : α → Parse β) : Parse β where
  run feed :=
    match p.run feed with
    | .ok a rest => (f a).run rest
    | .error e rest => .error e rest
  behind feed := by
    have hp := p.behind feed
    cases h : p.run feed with
    | ok a rest =>
      rw [h] at hp
      exact ((f a).behind rest).trans hp
    | error e rest =>
      rw [h] at hp
      exact hp

instance : Monad Parse where
  pure := Parse.pure
  bind := Parse.bind

@[simp] theorem run_pure (a : α) (feed : Feed) : (pure a : Parse α).run feed = .ok a feed := rfl

@[simp] theorem run_bind (p : Parse α) (f : α → Parse β) (feed : Feed) :
    (p >>= f).run feed =
      match p.run feed with
      | .ok a rest => (f a).run rest
      | .error e rest => .error e rest := rfl

theorem length_rest_le (p : Parse α) {feed rest : Feed} {a : α} (h : p.run feed = .ok a rest) :
    rest.tokens.length ≤ feed.tokens.length := by
  have hbehind := (p.behind feed).1.length_le
  rwa [h] at hbehind

/-- The token in front. Behind the last token the end of the text stays in front for good, and a
fault shows itself as soon as it is looked at. -/
def current : Parse Token where
  run feed :=
    match feed.tokens with
    | t :: _ => .ok t feed
    | [] =>
      match feed.ending with
      | .finish p => .ok (.atEnd p) feed
      | .fault e => .error (.lexical e) feed
  behind feed := by
    split
    · exact .refl feed
    · split <;> exact .refl feed

def advance : Parse Unit where
  run feed := .ok () ⟨feed.tokens.tail, feed.ending⟩
  behind feed := ⟨List.tail_suffix feed.tokens, rfl⟩

/-- Refuse the token in front. The open rules are given from the innermost on. -/
def refuse (rules : List Rule) (expected : Expectation) : Parse α := do
  let found ← current
  ⟨fun feed => .error (.misplaced ⟨expected, found, rules.reverse⟩) feed, Feed.Behind.refl⟩

def expect (rules : List Rule) (kind : TokenKind) : Parse Unit := do
  let t ← current
  if t.kind = kind then advance else refuse rules (.token kind)

def identifier (rules : List Rule) : Parse String := do
  match (← current).kind with
  | .identifier name => do
    advance
    return name
  | _ => refuse rules .identifier

/-- As long as the token in front is one of those that `accept?` knows, take it off and read an
item behind it. The end of the text is never taken. -/
def manyFrom (accept? : TokenKind → Option β) (item : β → Parse γ) (feed : Feed) :
    Reply (List γ) :=
  match ht : feed.tokens with
  | [] =>
    match feed.ending with
    | .finish _ => .ok [] feed
    | .fault e => .error (.lexical e) feed
  | t :: ts =>
    match accept? t.kind with
    | none => .ok [] feed
    | some b =>
      match hi : (item b).run ⟨ts, feed.ending⟩ with
      | .error e rest => .error e rest
      | .ok c rest =>
        have : rest.tokens.length < feed.tokens.length := by
          have hb := (item b).behind ⟨ts, feed.ending⟩
          rw [hi] at hb
          have hle : rest.tokens.length ≤ ts.length := hb.1.length_le
          rw [ht]
          exact Nat.lt_succ_of_le hle
        match manyFrom accept? item rest with
        | .ok cs rest' => .ok (c :: cs) rest'
        | .error e rest' => .error e rest'
termination_by feed.tokens.length

private theorem manyFrom_behind (accept? : TokenKind → Option β) (item : β → Parse γ)
    (feed : Feed) : (manyFrom accept? item feed).rest.Behind feed := by
  fun_induction manyFrom accept? item feed with
  | case1 feed ht t he => exact .refl feed
  | case2 feed ht e he => exact .refl feed
  | case3 feed t ts ht ha => exact .refl feed
  | case4 feed t ts ht b ha e rest hi =>
    have hb := (item b).behind ⟨ts, feed.ending⟩
    rw [hi] at hb
    exact hb.tail ht
  | case5 feed t ts ht b ha c rest hi hlt cs rest' hm ih =>
    have hb := (item b).behind ⟨ts, feed.ending⟩
    rw [hi] at hb
    rw [hm] at ih
    exact (ih.trans hb).tail ht
  | case6 feed t ts ht b ha c rest hi hlt e rest' hm ih =>
    have hb := (item b).behind ⟨ts, feed.ending⟩
    rw [hi] at hb
    rw [hm] at ih
    exact (ih.trans hb).tail ht

def many (accept? : TokenKind → Option β) (item : β → Parse γ) : Parse (List γ) :=
  ⟨manyFrom accept? item, manyFrom_behind accept? item⟩

theorem run_many_nil (accept? : TokenKind → Option β) (item : β → Parse γ) (ending : Ending) :
    (many accept? item).run ⟨[], ending⟩ =
      match ending with
      | .finish _ => .ok [] ⟨[], ending⟩
      | .fault e => .error (.lexical e) ⟨[], ending⟩ := by
  change manyFrom accept? item ⟨[], ending⟩ = _
  rw [manyFrom.eq_def]

theorem run_many_cons (accept? : TokenKind → Option β) (item : β → Parse γ) (t : Token)
    (ts : List Token) (ending : Ending) :
    (many accept? item).run ⟨t :: ts, ending⟩ =
      match accept? t.kind with
      | none => .ok [] ⟨t :: ts, ending⟩
      | some b => (do
          let c ← item b
          let cs ← many accept? item
          return c :: cs).run ⟨ts, ending⟩ := by
  change manyFrom accept? item ⟨t :: ts, ending⟩ = _
  rw [manyFrom.eq_def]
  dsimp only
  split
  · rfl
  · simp only [run_bind, run_pure, many]
    split <;> rename_i h <;> simp only [h]
    split <;> rename_i h' <;> simp only [h']

/-- Induction along a repetition: it goes on with what an item has left. -/
theorem manyInduction (item : β → Parse γ) {motive : Feed → Prop}
    (nil : ∀ ending, motive ⟨[], ending⟩)
    (cons : ∀ t ts ending, (∀ b c rest, (item b).run ⟨ts, ending⟩ = .ok c rest → motive rest) →
      motive ⟨t :: ts, ending⟩) (feed : Feed) : motive feed := by
  obtain ⟨tokens, ending⟩ := feed
  induction hn : tokens.length using Nat.strongRecOn generalizing tokens ending with
  | _ n ih =>
    cases tokens with
    | nil => exact nil ending
    | cons t ts =>
      refine cons t ts ending fun b c rest hc => ?_
      have shorter : rest.tokens.length < n := hn ▸ Nat.lt_succ_of_le ((item b).length_rest_le hc)
      exact ih _ shorter rest.tokens rest.ending rfl

def only (kind : TokenKind) (k : TokenKind) : Option Unit :=
  if k = kind then some () else none

end Parse

end MiniPascal
