import MiniPascal.Proofs.Grammar.OpenRules
import MiniPascal.Proofs.Grammar.Reading
import MiniPascal.Proofs.Grammar.RuleStack

/-!
Steps that keep a stack against steps that are told which rules are open. The one kind follows the
other when it comes to the same reply and puts the stack back as it was, with nothing but what is
allowed on the way. The laws for sequences, rules and repetitions build on those of their parts.
-/

set_option autoImplicit false
set_option relaxedAutoImplicit false

namespace MiniPascal

def Feed.fault? : Feed → Option LexError
  | ⟨[], .fault e⟩ => some e
  | _ => none

def Reply.fetched {α : Type} : Reply α → Reply α
  | .ok a rest =>
    match rest.fault? with
    | none => .ok a rest
    | some e => .error (.lexical e) rest
  | .error e rest => .error e rest

/-- A course that leaves the stack as it finds it: what a rule has put on top is taken off again,
and in between all is as it should be with that rule on top. -/
inductive Restores : List Rule → List Moment → Prop
  | nil {stack : List Rule} : Restores stack []
  | rule {r : Rule} {stack : List Rule} {inner after : List Moment} {succeeded : Bool}
      (body : Restores (r :: stack) inner) (behind : Restores stack after) :
      Restores stack (.opened (r :: stack) :: (inner ++ .closed r stack succeeded :: after))
  | refused {stack : List Rule} {m : Misplaced} {after : List Moment}
      (behind : Restores stack after) : Restores stack (.refused stack m :: after)

/-- What may happen when the stack is one of those in scope. No rule that is too deep succeeds; the
context of an error is the stack, and one about the depth is made only where it is too deep. -/
inductive Moment.Allowed (scope : List Rule → Prop) : Moment → Prop
  | opened {r : Rule} {stack : List Rule} (inScope : scope (r :: stack)) :
      Allowed scope (.opened (r :: stack))
  | closed {r : Rule} {stack : List Rule} {succeeded : Bool} (inScope : scope (r :: stack))
      (shallow : succeeded = true → ¬ Rule.TooDeep (r :: stack)) :
      Allowed scope (.closed r stack succeeded)
  | refused {stack : List Rule} {m : Misplaced} (inScope : scope stack)
      (context : m.context = stack.reverse)
      (deep : m.expected = .shallower → Rule.TooDeep stack) : Allowed scope (.refused stack m)

/-- An outcome that has the expected reply and the stack as it was before. -/
structure Outcome.Keeps {α : Type} (scope : List Rule → Prop) (stack : List Rule)
    (o : Outcome α) (reply : Reply α) : Prop where
  reply_eq : o.reply = reply.fetched
  stack_eq : o.stack = stack
  restores : Restores stack o.course
  allowed : ∀ moment ∈ o.course, moment.Allowed scope
  blamed : ∀ m rest, o.reply = .error (.misplaced m) rest →
    .refused m.context.reverse m ∈ o.course

def Parse.MeetsFault {α : Type} (q : Parse α) : Prop :=
  ∀ e, (q.run ⟨[], .fault e⟩).fetched = .error (.lexical e) ⟨[], .fault e⟩

/-- Repetition of an item that begins with the token it is chosen by, and takes it off. -/
structure Parse.Repeats {β γ : Type} (accept? : TokenKind → Option β) (item : β → Parse γ)
    (q : Parse (List γ)) : Prop where
  meetsFault : q.MeetsFault
  finish : ∀ p, q.run ⟨[], .finish p⟩ = .ok [] ⟨[], .finish p⟩
  stops : ∀ t ts ending, accept? t.kind = none →
    q.run ⟨t :: ts, ending⟩ = .ok [] ⟨t :: ts, ending⟩
  goesOn : ∀ t ts ending b, accept? t.kind = some b →
    q.run ⟨t :: ts, ending⟩ =
      (do let c ← item b; let cs ← q; return c :: cs).run ⟨t :: ts, ending⟩
  progress : ∀ t ts ending b c rest, accept? t.kind = some b →
    (item b).run ⟨t :: ts, ending⟩ = .ok c rest → rest.tokens.length ≤ ts.length

/-- On this stack a step does what another one does that is told what is on it. -/
structure Stacked.Agrees {α : Type} (scope : List Rule → Prop) (stack : List Rule)
    (p : Stacked α) (q : Parse α) : Prop where
  keeps : ∀ feed, feed.fault? = none → (p.run stack feed).Keeps scope stack (q.run feed)
  meetsFault : q.MeetsFault

theorem Feed.eq_of_fault? {feed : Feed} {e : LexError} (h : feed.fault? = some e) :
    feed = ⟨[], .fault e⟩ := by
  unfold Feed.fault? at h
  split at h <;> cases h
  rfl

theorem Feed.exists_front_of_fault? {feed : Feed} (h : feed.fault? = none) :
    ∃ t, feed.front? = some t := by
  obtain ⟨_ | ⟨t, ts⟩, ending⟩ := feed
  · cases ending with
    | finish p => exact ⟨.atEnd p, rfl⟩
    | fault e => cases h
  · exact ⟨t, rfl⟩

theorem Reply.fetched_ok {α : Type} {a : α} {rest : Feed} (h : rest.fault? = none) :
    (Reply.ok a rest).fetched = .ok a rest := by
  rw [fetched, h]

private theorem Reply.exists_ok_of_fetched {α : Type} {reply : Reply α}
    (h : reply.fetched.isOk = true) : ∃ a rest, reply = .ok a rest := by
  cases reply with
  | ok a rest => exact ⟨a, rest, rfl⟩
  | error e rest => cases h

private theorem Restores.append {stack : List Rule} {course course' : List Moment}
    (h : Restores stack course) (h' : Restores stack course') :
    Restores stack (course ++ course') := by
  induction h with
  | nil => exact h'
  | rule body _ _ ih =>
    rw [List.cons_append, List.append_assoc, List.cons_append]
    exact .rule body (ih h')
  | refused _ ih => exact .refused (ih h')

theorem Outcome.Keeps.mono {α : Type} {scope scope' : List Rule → Prop} {stack : List Rule}
    {o : Outcome α} {reply : Reply α} (h : o.Keeps scope stack reply)
    (hscope : ∀ stack, scope stack → scope' stack) : o.Keeps scope' stack reply := by
  refine { h with allowed := fun moment hmem => ?_ }
  cases h.allowed moment hmem with
  | opened inScope => exact .opened (hscope _ inScope)
  | closed inScope shallow => exact .closed (hscope _ inScope) shallow
  | refused inScope context deep => exact .refused (hscope _ inScope) context deep

namespace Parse

variable {α β : Type}

private theorem ext_run {p q : Parse α} (h : ∀ feed, p.run feed = q.run feed) : p = q := by
  obtain ⟨run, _⟩ := p
  obtain ⟨run', _⟩ := q
  congr
  exact funext h

instance : LawfulMonad Parse := by
  refine LawfulMonad.mk' Parse ?id_map (fun _ _ => rfl) ?bind_assoc
  case id_map =>
    intro α p
    refine ext_run fun feed => ?_
    change (p >>= pure).run feed = _
    rw [run_bind]
    cases p.run feed <;> rfl
  case bind_assoc =>
    intro α β γ p f g
    refine ext_run fun feed => ?_
    simp only [run_bind]
    cases p.run feed <;> rfl

theorem refuse_bind {rules : List Rule} {expected : Expectation} {g : α → Parse β} :
    (refuse rules expected >>= g) = refuse rules expected := by
  simp only [refuse, bind_assoc]
  rfl

private theorem MeetsFault.bind {p : Parse α} {g : α → Parse β} (hp : p.MeetsFault)
    (hg : ∀ a, (g a).MeetsFault) : (p >>= g).MeetsFault := by
  intro e
  have hfault := hp e
  have hbehind := p.behind ⟨[], .fault e⟩
  rw [run_bind]
  generalize p.run ⟨[], .fault e⟩ = reply at hfault hbehind
  cases reply with
  | error e' rest =>
    cases hfault
    rfl
  | ok a rest =>
    obtain ⟨tokens, ending⟩ := rest
    obtain rfl : tokens = [] := List.suffix_nil.mp hbehind.1
    obtain rfl : ending = .fault e := hbehind.2
    exact hg a e

theorem repeats_many {accept? : TokenKind → Option α} {item taken : α → Parse β}
    (h : ∀ a t ts ending, accept? t.kind = some a →
      (item a).run ⟨t :: ts, ending⟩ = (taken a).run ⟨ts, ending⟩) :
    Repeats accept? item (many accept? taken) where
  meetsFault e := by
    rw [run_many_nil]
    rfl
  finish p := run_many_nil accept? taken (.finish p)
  stops t ts ending ha := by rw [run_many_cons, ha]
  goesOn t ts ending a ha := by
    rw [run_many_cons, ha]
    dsimp only
    rw [run_bind, run_bind, h a t ts ending ha]
  progress t ts ending a b rest ha hrun := by
    rw [h a t ts ending ha] at hrun
    exact (taken a).length_rest_le hrun

end Parse

namespace Stacked

open Rule (TooDeep)

variable {α β γ : Type} {scope : List Rule → Prop} {stack : List Rule} {feed rest : Feed}

section Sequence

variable {p : Stacked α} {f : α → Stacked β} {q : Parse α} {g : α → Parse β}

private theorem run_bind_of_ok {a : α} (h : (p.run stack feed).reply = .ok a rest) :
    (p >>= f).run stack feed =
      let o := (f a).run (p.run stack feed).stack rest
      ⟨o.reply, o.stack, (p.run stack feed).course ++ o.course⟩ := by
  change (Stacked.bind p f).run stack feed = _
  simp only [Stacked.bind, h]

private theorem run_bind_of_error {e : ParseError} (h : (p.run stack feed).reply = .error e rest) :
    (p >>= f).run stack feed =
      ⟨.error e rest, (p.run stack feed).stack, (p.run stack feed).course⟩ := by
  change (Stacked.bind p f).run stack feed = _
  simp only [Stacked.bind, h]

private theorem run_current_bind {f : Token → Stacked β} {t : Token} (h : feed.front? = some t) :
    (current >>= f).run stack feed = (f t).run stack feed :=
  run_bind_of_ok (Parse.run_current_eq_ok.mpr ⟨h, rfl⟩)

private theorem keeps_reply {o : Outcome α} {reply : Reply α} (h : o = ⟨reply.fetched, stack, []⟩)
    (hreply : ∀ m rest, reply.fetched ≠ .error (.misplaced m) rest) :
    o.Keeps scope stack reply := by
  subst h
  exact {
    reply_eq := rfl
    stack_eq := rfl
    restores := .nil
    allowed := fun _ hmem => nomatch hmem
    blamed := fun m rest herror => absurd herror (hreply m rest) }

private theorem keeps_ok {o : Outcome α} {a : α} (h : o = ⟨.ok a feed, stack, []⟩)
    (hfeed : feed.fault? = none) : o.Keeps scope stack (.ok a feed) := by
  rw [← Reply.fetched_ok hfeed] at h
  refine keeps_reply h ?_
  rw [Reply.fetched_ok hfeed]
  rintro m rest ⟨⟩

private theorem keeps_pure (a : α) (h : feed.fault? = none) :
    ((pure a : Stacked α).run stack feed).Keeps scope stack (.ok a feed) :=
  keeps_ok rfl h

private theorem keeps_bind_of_error {reply : Reply α} {reply' : Reply β} {e : ParseError}
    (hp : (p.run stack feed).Keeps scope stack reply) (h : reply.fetched = .error e rest)
    (h' : reply'.fetched = .error e rest) :
    ((p >>= f).run stack feed).Keeps scope stack reply' := by
  have hreply := hp.reply_eq.trans h
  rw [run_bind_of_error hreply]
  refine { hp with reply_eq := h'.symm, blamed := ?_ }
  rintro m rest ⟨⟩
  exact hp.blamed m _ hreply

/-- The two sides may read from different places, as long as they come to the same. -/
theorem keeps_bind {feed' : Feed} (hp : (p.run stack feed).Keeps scope stack (q.run feed'))
    (hf : ∀ a rest, q.run feed' = .ok a rest → rest.fault? = none →
      ((f a).run stack rest).Keeps scope stack ((g a).run rest))
    (hfault : ∀ a, (g a).MeetsFault) :
    ((p >>= f).run stack feed).Keeps scope stack ((q >>= g).run feed') := by
  rw [Parse.run_bind]
  cases hq : q.run feed' with
  | error e rest => exact keeps_bind_of_error hp (congrArg Reply.fetched hq) rfl
  | ok a rest =>
    rw [hq] at hp
    cases hrest : rest.fault? with
    | none =>
      have hreply := hp.reply_eq.trans (Reply.fetched_ok hrest)
      have hnext := hf a rest hq hrest
      rw [run_bind_of_ok hreply, hp.stack_eq]
      exact {
        reply_eq := hnext.reply_eq
        stack_eq := hnext.stack_eq
        restores := hp.restores.append hnext.restores
        allowed := List.forall_mem_append.mpr ⟨hp.allowed, hnext.allowed⟩
        blamed := fun m rest h => List.mem_append_right _ (hnext.blamed m rest h) }
    | some e =>
      -- The first step has come to the fault already.
      obtain rfl := Feed.eq_of_fault? hrest
      exact keeps_bind_of_error hp rfl (hfault a e)

theorem agrees_pure (a : α) : Agrees scope stack (pure a) (pure a) where
  keeps _ h := keeps_pure a h
  meetsFault _ := rfl

theorem Agrees.bind (hp : Agrees scope stack p q) (hf : ∀ a, Agrees scope stack (f a) (g a)) :
    Agrees scope stack (p >>= f) (q >>= g) where
  keeps feed h :=
    keeps_bind (hp.keeps feed h) (fun a rest _ => (hf a).keeps rest) fun a => (hf a).meetsFault
  meetsFault := hp.meetsFault.bind fun a => (hf a).meetsFault

theorem Agrees.ite {c : Prop} [Decidable c] {p' : Stacked α} {q' : Parse α}
    (h : Agrees scope stack p q) (h' : Agrees scope stack p' q') :
    Agrees scope stack (if c then p else p') (if c then q else q') := by
  split
  · exact h
  · exact h'

private theorem Agrees.refused {rules : List Rule} {expected : Expectation}
    (h : Agrees scope stack p (Parse.refuse rules expected)) :
    Agrees scope stack (p >>= f) (Parse.refuse rules expected) where
  keeps feed hfeed := by
    have hbind := keeps_bind (f := f) (g := fun _ => Parse.refuse rules expected)
      (h.keeps feed hfeed) (fun a rest hok _ => absurd hok Parse.run_refuse_ne_ok) fun _ _ => rfl
    rwa [Parse.refuse_bind] at hbind
  meetsFault _ := rfl

end Sequence

section Tokens

theorem agrees_current : Agrees scope stack current Parse.current where
  keeps feed h := by
    obtain ⟨t, ht⟩ := Feed.exists_front_of_fault? h
    have hrun : Parse.current.run feed = .ok t feed := Parse.run_current_eq_ok.mpr ⟨ht, rfl⟩
    rw [hrun]
    exact keeps_ok (congrArg (Outcome.mk · stack []) hrun) h
  meetsFault _ := rfl

theorem agrees_advance : Agrees scope stack advance Parse.advance where
  keeps feed _ := by
    have hfetch : (do Parse.advance; let _ ← Parse.current).run feed =
        (Parse.advance.run feed).fetched := by
      obtain ⟨_ | ⟨_, _ | ⟨_, _⟩⟩, _ | _⟩ := feed <;> rfl
    refine keeps_reply (congrArg (Outcome.mk · stack []) hfetch) ?_
    rw [← hfetch]
    obtain ⟨_ | ⟨_, _ | ⟨_, _⟩⟩, _ | _⟩ := feed <;> rintro _ _ ⟨⟩
  meetsFault _ := rfl

theorem agrees_refuse {expected : Expectation} (inScope : scope stack)
    (deep : expected = .shallower → TooDeep stack) :
    Agrees scope stack (refuse expected : Stacked α) (Parse.refuse stack expected) where
  keeps feed h := by
    obtain ⟨t, ht⟩ := Feed.exists_front_of_fault? h
    have hrun : (Parse.refuse stack expected : Parse α).run feed =
        .error (.misplaced ⟨expected, t, stack.reverse⟩) feed := by
      rw [Parse.refuse, Parse.run_bind, Parse.run_current_eq_ok.mpr ⟨ht, rfl⟩]
    rw [refuse, run_current_bind ht, hrun]
    exact {
      reply_eq := rfl
      stack_eq := rfl
      restores := .refused .nil
      allowed := List.forall_mem_singleton.mpr (.refused inScope rfl deep)
      blamed := by
        rintro m rest ⟨⟩
        simp only [List.reverse_reverse]
        exact List.mem_singleton_self _ }
  meetsFault _ := rfl

theorem agrees_expect (kind : TokenKind) (inScope : scope stack) :
    Agrees scope stack (expect kind) (Parse.expect stack kind) :=
  agrees_current.bind fun _ => agrees_advance.ite (agrees_refuse inScope nofun)

theorem agrees_identifier (inScope : scope stack) :
    Agrees scope stack identifier (Parse.identifier stack) := by
  refine agrees_current.bind fun t => ?_
  cases t.kind with
  | identifier name => exact agrees_advance.bind fun _ => agrees_pure _
  | _ => exact agrees_refuse inScope nofun

end Tokens

section Rules

variable {rule : Rule} {p : Stacked α} {q : Parse α}

private theorem run_within (h : (p.run (rule :: stack) feed).stack = rule :: stack) :
    (within rule p).run stack feed =
      let o := p.run (rule :: stack) feed
      ⟨o.reply, stack,
        .opened (rule :: stack) :: (o.course ++ [.closed rule stack o.reply.isOk])⟩ := by
  have htail : (p.run (rule :: stack) feed).stack.tail = stack := by rw [h, List.tail_cons]
  simp only [within, htail]

private theorem Agrees.within (h : Agrees scope (rule :: stack) p q)
    (inScope : scope (rule :: stack))
    (shallow : TooDeep (rule :: stack) → ∀ feed a rest, q.run feed ≠ .ok a rest) :
    Agrees scope stack (within rule p) q where
  keeps feed hfeed := by
    have hp := h.keeps feed hfeed
    rw [run_within hp.stack_eq]
    refine {
      reply_eq := hp.reply_eq
      stack_eq := rfl
      restores := .rule hp.restores .nil
      allowed := List.forall_mem_cons.mpr ⟨.opened inScope,
        List.forall_mem_append.mpr ⟨hp.allowed, List.forall_mem_singleton.mpr (.closed inScope ?_)⟩⟩
      blamed := ?_ }
    · intro hok hdeep
      rw [hp.reply_eq] at hok
      obtain ⟨a, rest, hrun⟩ := Reply.exists_ok_of_fetched hok
      exact shallow hdeep feed a rest hrun
    · intro m rest herror
      exact List.mem_cons_of_mem _ (List.mem_append_left _ (hp.blamed m rest herror))
  meetsFault := h.meetsFault

theorem Agrees.within_free (h : Agrees scope (rule :: stack) p q)
    (inScope : scope (rule :: stack)) (free : rule.limited = false) :
    Agrees scope stack (Stacked.within rule p) q :=
  h.within inScope fun hdeep => absurd hdeep (Rule.not_tooDeep_of_free free)

private theorem Agrees.within_refused {rules : List Rule} {expected : Expectation}
    (h : Agrees scope (rule :: stack) p (Parse.refuse rules expected))
    (inScope : scope (rule :: stack)) :
    Agrees scope stack (Stacked.within rule p) (Parse.refuse rules expected) :=
  h.within inScope fun _ _ _ _ => Parse.run_refuse_ne_ok

private theorem agrees_checkDepth (h : stack.length ≤ Rule.limit) :
    Agrees scope stack checkDepth (pure ()) where
  keeps feed hfeed := by
    have hrun : checkDepth.run stack feed = ⟨.ok () feed, stack, []⟩ := if_pos h
    exact keeps_ok hrun hfeed
  meetsFault _ := rfl

private theorem agrees_checkDepth_of_tooDeep (inScope : scope stack) (h : TooDeep stack) :
    Agrees scope stack checkDepth (Parse.refuse stack .shallower) := by
  have hrefuse : Agrees scope stack (refuse .shallower : Stacked Unit)
      (Parse.refuse stack .shallower) := agrees_refuse inScope fun _ => h
  refine ⟨fun feed hfeed => ?_, hrefuse.meetsFault⟩
  have hrun : checkDepth.run stack feed = (refuse .shallower).run stack feed := by
    cases stack with
    | nil => exact h.elim
    | cons r below => exact if_neg (Nat.not_le_of_lt h.2)
  rw [hrun]
  exact hrefuse.keeps feed hfeed

private theorem Agrees.checked (h : Agrees scope stack p q) (hlimit : stack.length ≤ Rule.limit) :
    Agrees scope stack (do checkDepth; p) q := by
  have hchecked := (agrees_checkDepth hlimit).bind fun _ => h
  rwa [pure_bind] at hchecked

/-- A rule that looks at the depth and has itself in it is refused where it is too deep, and it need
not be entered more often than the limit lets it be. -/
theorem agrees_nested (rules : List Rule → Parse α) {body : Stacked α → Stacked α} {n : Nat}
    (limited : rule.limited = true)
    (deep : ∀ below, TooDeep (rule :: below) →
      rules (rule :: below) = Parse.refuse (rule :: below) .shallower)
    (shallow : ∀ below inner, scope (rule :: below) → (rule :: below).length ≤ Rule.limit →
      (∀ deeper, scope (rule :: deeper) → below.length < deeper.length →
        Agrees scope deeper inner (rules (rule :: deeper))) →
      Agrees scope (rule :: below) (body inner) (rules (rule :: below)))
    (inScope : scope (rule :: stack)) (hn : Rule.limit ≤ stack.length + n) :
    Agrees scope stack (nested n rule body) (rules (rule :: stack)) := by
  -- By induction on how often the rule may still be entered: each time takes one off that number
  -- and puts at least one rule on the stack, so the limit is met first.
  induction n generalizing stack with
  | zero =>
    have hdeep : TooDeep (rule :: stack) := ⟨limited, Nat.lt_succ_of_le hn⟩
    rw [deep stack hdeep]
    exact (agrees_refuse inScope fun _ => hdeep).within_refused inScope
  | succ n ih =>
    by_cases hlimit : (rule :: stack).length ≤ Rule.limit
    · have hinner := shallow stack (nested n rule body) inScope hlimit fun deeper hopen hlength =>
        ih hopen (by omega)
      refine (hinner.checked hlimit).within inScope fun hdeep => ?_
      exact absurd hdeep (Rule.not_tooDeep_of_length hlimit)
    · have hdeep : TooDeep (rule :: stack) := ⟨limited, Nat.lt_of_not_le hlimit⟩
      rw [deep stack hdeep]
      exact (agrees_checkDepth_of_tooDeep inScope hdeep).refused.within_refused inScope

end Rules

section Repetition

variable {accept? : TokenKind → Option β} {item : β → Stacked γ} {item' : β → Parse γ}
  {q : Parse (List γ)}

private theorem run_rounds_finish (hend : accept? .endOfInput = none) (n : Nat) (p : Position) :
    (rounds accept? item n).run stack ⟨[], .finish p⟩ = ⟨.ok [] ⟨[], .finish p⟩, stack, []⟩ := by
  cases n with
  | zero => rfl
  | succ n =>
    rw [rounds, run_current_bind rfl]
    simp only [Token.atEnd, hend]
    rfl

/-- Each round leaves fewer tokens, so there are rounds enough when there are as many as tokens. -/
private theorem keeps_rounds (hend : accept? .endOfInput = none)
    (hq : Parse.Repeats accept? item' q)
    (hitem : ∀ b, Agrees scope stack (item b) (item' b)) (n : Nat) (feed : Feed)
    (hlength : feed.tokens.length ≤ n) (hfeed : feed.fault? = none) :
    ((rounds accept? item n).run stack feed).Keeps scope stack (q.run feed) := by
  -- By induction on the number of rounds; an item takes the token that it is chosen by, so what it
  -- leaves is short enough for the rounds that are left.
  induction n generalizing feed with
  | zero =>
    obtain ⟨_ | ⟨t, ts⟩, p | e⟩ := feed
    · rw [run_rounds_finish hend, hq.finish]
      exact keeps_ok rfl rfl
    all_goals contradiction
  | succ n ih =>
    obtain ⟨_ | ⟨t, ts⟩, ending⟩ := feed
    · cases ending with
      | fault e => contradiction
      | finish p =>
        rw [run_rounds_finish hend, hq.finish]
        exact keeps_ok rfl rfl
    · rw [rounds, run_current_bind rfl]
      cases ha : accept? t.kind with
      | none =>
        rw [hq.stops t ts ending ha]
        exact keeps_pure [] rfl
      | some b =>
        rw [hq.goesOn t ts ending b ha]
        refine keeps_bind ((hitem b).keeps _ hfeed) ?_ fun c => hq.meetsFault.bind fun _ _ => rfl
        intro c rest hc hrest
        have hshorter : rest.tokens.length ≤ n :=
          Nat.le_trans (hq.progress t ts ending b c rest ha hc) (Nat.le_of_succ_le_succ hlength)
        exact keeps_bind (ih rest hshorter hrest) (fun cs rest' _ => keeps_pure _) fun _ _ => rfl

theorem agrees_loop (hend : accept? .endOfInput = none) (hq : Parse.Repeats accept? item' q)
    (hitem : ∀ b, Agrees scope stack (item b) (item' b)) :
    Agrees scope stack (loop accept? item) q where
  keeps feed hfeed := keeps_rounds hend hq hitem _ feed (Nat.le_refl _) hfeed
  meetsFault := hq.meetsFault

theorem agrees_loop_advance (hend : accept? .endOfInput = none)
    (hitem : ∀ b, Agrees scope stack (item b) (item' b)) :
    Agrees scope stack (loop accept? fun b => do advance; item b) (Parse.many accept? item') :=
  agrees_loop hend (Parse.repeats_many fun _ _ _ _ _ => rfl) fun b =>
    agrees_advance.bind fun _ => hitem b

end Repetition

theorem Agrees.keeps_fetched {p : Stacked α} {q : Parse α} (h : Agrees scope stack p q)
    (feed : Feed) : ((fetchFirst p).run stack feed).Keeps scope stack (q.run feed) := by
  cases hfeed : feed.fault? with
  | none =>
    obtain ⟨t, ht⟩ := Feed.exists_front_of_fault? hfeed
    rw [fetchFirst, run_current_bind ht]
    exact h.keeps feed hfeed
  | some e =>
    obtain rfl := Feed.eq_of_fault? hfeed
    have hreply := h.meetsFault e
    refine keeps_reply ?_ ?_
    · rw [hreply]
      rfl
    · rw [hreply]
      rintro m rest ⟨⟩

end Stacked

end MiniPascal
