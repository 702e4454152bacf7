import MiniPascal.Proofs.Grammar.Composition

/-!
Reading does not look at places. When all tokens are moved, a step replies with the same result, or
with the same error moved in the same way, whatever the map of places is: `Composed.moves` says so
of every step that is composed, and `toExcept_run_program_moved` of a program.
-/

set_option autoImplicit false
set_option relaxedAutoImplicit false

namespace MiniPascal

def Position.forget : Position → Position := fun _ => .start

section Moving

variable (f : Position → Position)

def Span.moved (s : Span) : Span := ⟨f s.start, f s.finish⟩

def Token.moved (t : Token) : Token := { t with span := t.span.moved f }

def LexError.moved : LexError → LexError
  | .strayCharacter c span => .strayCharacter c (span.moved f)
  | .unclosedComment span => .unclosedComment (span.moved f)
  | .numberOutOfRange text span => .numberOutOfRange text (span.moved f)

def Misplaced.moved (m : Misplaced) : Misplaced := { m with found := m.found.moved f }

def ParseError.moved : ParseError → ParseError
  | .lexical e => .lexical (e.moved f)
  | .misplaced m => .misplaced (m.moved f)

def Ending.moved : Ending → Ending
  | .finish p => .finish (f p)
  | .fault e => .fault (e.moved f)

def Feed.moved (feed : Feed) : Feed := ⟨feed.tokens.map (Token.moved f), feed.ending.moved f⟩

def Reply.moved {α : Type} : Reply α → Reply α
  | .ok a rest => .ok a (rest.moved f)
  | .error e rest => .error (e.moved f) (rest.moved f)

end Moving

variable {α β γ : Type} (f : Position → Position)

@[simp] theorem Token.kind_moved (t : Token) : (t.moved f).kind = t.kind := rfl

@[simp] theorem Token.lexeme_moved (t : Token) : (t.moved f).lexeme = t.lexeme := rfl

theorem Feed.all_moved (feed : Feed) :
    (feed.moved f).all = (feed.all.map (List.map (Token.moved f))).mapError (LexError.moved f) := by
  obtain ⟨tokens, ending⟩ := feed
  cases ending with
  | finish p =>
    change Except.ok (tokens.map (Token.moved f) ++ [Token.atEnd (f p)]) =
      Except.ok ((tokens ++ [Token.atEnd p]).map (Token.moved f))
    rw [List.map_append]
    rfl
  | fault e => rfl

private theorem Reply.toExcept_moved (reply : Reply α) :
    (reply.moved f).toExcept = reply.toExcept.mapError (ParseError.moved f) := by
  cases reply <;> rfl

namespace Parse

/-- A step comes to the same when what it reads is moved. -/
def Moves (p : Parse α) : Prop := ∀ feed, p.run (feed.moved f) = (p.run feed).moved f

variable {f}

private theorem moved_bind {p : Parse α} {g : α → Parse β} {feed : Feed}
    (hp : p.run (feed.moved f) = (p.run feed).moved f)
    (hg : ∀ a rest, p.run feed = .ok a rest → (g a).run (rest.moved f) = ((g a).run rest).moved f) :
    (p >>= g).run (feed.moved f) = ((p >>= g).run feed).moved f := by
  rw [run_bind, run_bind, hp]
  cases h : p.run feed with
  | ok a rest => exact hg a rest h
  | error e rest => rfl

private theorem Moves.bind {p : Parse α} {g : α → Parse β} (hp : p.Moves f)
    (hg : ∀ a, (g a).Moves f) : (p >>= g).Moves f :=
  fun feed => moved_bind (hp feed) fun a rest _ => hg a rest

private theorem current_moved (feed : Feed) :
    current.run (feed.moved f) =
      match current.run feed with
      | .ok t rest => .ok (t.moved f) (rest.moved f)
      | .error e rest => .error (e.moved f) (rest.moved f) := by
  obtain ⟨tokens, ending⟩ := feed
  cases tokens with
  | cons t ts => rfl
  | nil => cases ending <;> rfl

private theorem moves_look {g : Token → Parse α} (by_kind : ∀ t u, t.kind = u.kind → g t = g u)
    (hg : ∀ t, (g t).Moves f) : (current >>= g).Moves f := by
  intro feed
  rw [run_bind, run_bind, current_moved]
  cases current.run feed with
  | ok t rest =>
    change (g (t.moved f)).run (rest.moved f) = ((g t).run rest).moved f
    rw [by_kind (t.moved f) t rfl, hg t]
  | error e rest => rfl

private theorem moves_advance : advance.Moves f := by
  rintro ⟨tokens, ending⟩
  simp [advance, Feed.moved, Reply.moved]

private theorem moves_refuse (rules : List Rule) (expected : Expectation) :
    (refuse rules expected : Parse α).Moves f := by
  intro feed
  unfold refuse
  rw [run_bind, run_bind, current_moved]
  cases current.run feed <;> rfl

private theorem moves_many {accept? : TokenKind → Option β} {item : β → Parse γ}
    (h : ∀ b, (item b).Moves f) : (many accept? item).Moves f := by
  intro feed
  induction feed using manyInduction item with
  | nil ending =>
    simp only [Feed.moved, List.map_nil, run_many_nil]
    cases ending <;> rfl
  | cons t ts ending ih =>
    simp only [Feed.moved, List.map_cons, run_many_cons, Token.kind_moved]
    split
    · rfl
    · rename_i b _
      exact moved_bind (h b ⟨ts, ending⟩) fun c rest hc =>
        moved_bind (ih b c rest hc) fun cs _ _ => rfl

theorem Composed.moves {p : Parse α} (h : Composed p) : p.Moves f := by
  induction h with
  | pure a => exact fun _ => rfl
  | bind _ _ hp hg => exact hp.bind hg
  | look by_kind _ hg => exact moves_look by_kind hg
  | advance => exact moves_advance
  | refuse rules expected => exact moves_refuse rules expected
  | many _ hitem => exact moves_many hitem

theorem toExcept_run_program_moved (feed : Feed) :
    (program.run (feed.moved f)).toExcept =
      (program.run feed).toExcept.mapError (ParseError.moved f) := by
  rw [composed_program.moves, Reply.toExcept_moved]

end Parse

end MiniPascal
