import MiniPascal.Proofs.Grammar.Composition

/-!
Reading looks no further than it goes. Two feeds may differ behind some token; a step that does not
take that token off does the same on both.
-/

set_option autoImplicit false
set_option relaxedAutoImplicit false

namespace MiniPascal

/-- A token, and two ways to go on behind it. -/
structure Fork where
  token : Token
  behind : Feed
  behind' : Feed

namespace Fork

def one (f : Fork) (ts : List Token) : Feed := ⟨ts ++ f.token :: f.behind.tokens, f.behind.ending⟩

def other (f : Fork) (ts : List Token) : Feed :=
  ⟨ts ++ f.token :: f.behind'.tokens, f.behind'.ending⟩

/-- Replies on the two feeds of a fork. They are the same, and leave the same tokens in front of
the fork, or the first one has taken the token of the fork off. -/
inductive Alike {α : Type} (f : Fork) : Reply α → Reply α → Prop
  | ok (a : α) (ts : List Token) : Alike f (.ok a (f.one ts)) (.ok a (f.other ts))
  | error (e : ParseError) (ts : List Token) :
      Alike f (.error e (f.one ts)) (.error e (f.other ts))
  | past {reply reply' : Reply α}
      (taken : reply.rest.tokens.length ≤ f.behind.tokens.length) : Alike f reply reply'

private theorem length_one (f : Fork) (ts : List Token) :
    (f.one ts).tokens.length = ts.length + (f.behind.tokens.length + 1) := by
  simp [one]

private theorem one_inj {f : Fork} {ts ts' : List Token} (h : f.one ts = f.one ts') : ts = ts' :=
  List.append_cancel_right (congrArg Feed.tokens h)

end Fork

namespace Parse

open Fork

variable {α β γ : Type} {rules : List Rule}

/-- A step does the same on both feeds of a fork unless it goes past it. -/
def Local (p : Parse α) : Prop := ∀ (f : Fork) ts, f.Alike (p.run (f.one ts)) (p.run (f.other ts))

/-- What an error says does not depend on what stands behind the token at which it arose. -/
theorem Local.run_error {p : Parse α} (h : p.Local) {f : Fork} {ts ts' : List Token}
    {e : ParseError} (hrun : p.run (f.one ts) = .error e (f.one ts')) :
    p.run (f.other ts) = .error e (f.other ts') := by
  have halike := h f ts
  rw [hrun] at halike
  generalize p.run (f.other ts) = reply at halike
  generalize hone : f.one ts' = rest at halike
  cases halike with
  | error _ ts'' => rw [one_inj hone]
  | past taken =>
    simp only [Reply.rest, ← hone, length_one] at taken
    omega

private theorem alike_bind {p : Parse α} {g : α → Parse β} {f : Fork} {ts : List Token}
    (hp : f.Alike (p.run (f.one ts)) (p.run (f.other ts)))
    (hg : ∀ a ts', p.run (f.one ts) = .ok a (f.one ts') →
      f.Alike ((g a).run (f.one ts')) ((g a).run (f.other ts'))) :
    f.Alike ((p >>= g).run (f.one ts)) ((p >>= g).run (f.other ts)) := by
  have hbehind := p.behind (f.one ts)
  rw [run_bind, run_bind]
  generalize p.run (f.one ts) = reply at hp hg hbehind
  generalize p.run (f.other ts) = reply' at hp
  cases hp with
  | ok a ts' => exact hg a ts' rfl
  | error e ts' => exact .error e ts'
  | past taken =>
    apply Alike.past
    cases reply with
    | ok a rest => exact Nat.le_trans ((g a).behind rest).1.length_le taken
    | error e rest => exact taken

private theorem Local.pure (a : α) : (pure a : Parse α).Local := fun _ ts => .ok a ts

private theorem Local.bind {p : Parse α} {g : α → Parse β} (hp : p.Local) (hg : ∀ a, (g a).Local) :
    (p >>= g).Local :=
  fun f ts => alike_bind (hp f ts) fun a ts' _ => hg a f ts'

private theorem local_current : current.Local := by
  intro f ts
  cases ts with
  | nil => exact .ok f.token []
  | cons t ts => exact .ok t (t :: ts)

private theorem local_advance : advance.Local := by
  intro f ts
  cases ts with
  | nil => exact .past (Nat.le_refl _)
  | cons t ts => exact .ok () ts

private theorem local_refuse (expected : Expectation) : (refuse rules expected : Parse α).Local :=
  local_current.bind fun _ _ ts => .error _ ts

private theorem local_many {accept? : TokenKind → Option β} {item : β → Parse γ}
    (h : ∀ b, (item b).Local) : (many accept? item).Local := by
  intro f ts
  induction hn : ts.length using Nat.strongRecOn generalizing ts with
  | _ n ih =>
    cases ts with
    | nil =>
      simp only [one, other, List.nil_append, run_many_cons]
      split
      · exact .ok [] []
      · rename_i b _
        exact .past (Parse.behind _ _).1.length_le
    | cons t ts =>
      simp only [one, other, List.cons_append, run_many_cons]
      split
      · exact .ok [] (t :: ts)
      · rename_i b _
        refine alike_bind (h b f ts) ?_
        intro c ts' hc
        -- An item leaves no more tokens in front of the fork than it found there.
        have shorter : ts'.length < n := by
          have hle := (item b).length_rest_le hc
          simp only [length_one] at hle
          simp only [List.length_cons] at hn
          omega
        exact alike_bind (ih _ shorter ts' rfl) fun cs ts'' _ => .ok _ ts''

private theorem Composed.local {p : Parse α} (h : Composed p) : p.Local := by
  induction h with
  | pure a => exact .pure a
  | bind _ _ hp hg => exact hp.bind hg
  | look _ _ hg => exact local_current.bind hg
  | advance => exact local_advance
  | refuse rules expected => exact local_refuse expected
  | many _ hitem => exact local_many hitem

theorem local_program : program.Local := composed_program.local

end Parse

end MiniPascal
