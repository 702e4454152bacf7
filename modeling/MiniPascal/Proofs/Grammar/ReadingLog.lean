import MiniPascal.Interpretation
import MiniPascal.Proofs.Grammar.Lookahead

/-!
What is logged while a text is read. Tokens are fetched one at a time, so the log tells how far the
reading came: to the end of the text, to the token that is out of place, or up to a fault.
`Program.logsReading` says so.
-/

set_option autoImplicit false
set_option relaxedAutoImplicit false

namespace MiniPascal

/-- The tokens that are fetched to read a program, the end of the text included, or to find out that
there is none. -/
inductive Program.Fetches (source : String) : Except ParseError Program → List Token → Prop
  | all {p : Program} {fetched : List Token} (tokens : (Feed.ofString source).all = .ok fetched) :
      Fetches source (.ok p) fetched
  | toMisplaced {m : Misplaced} {front : List Token} {s : Scanner}
      (gives : (Scanner.ofString source).Gives (front ++ [m.found]) s)
      (first : m.found ∉ front) : Fetches source (.error (.misplaced m)) (front ++ [m.found])
  | toFault {e : LexError} {fetched : List Token} {s s' : Scanner}
      (gives : (Scanner.ofString source).Gives fetched s) (fault : s.next = (.error e, s')) :
      Fetches source (.error (.lexical e)) fetched

/-- Every token is logged but the end of the text. -/
def Event.tokens (fetched : List Token) : List Event :=
  (fetched.filter fun t => t.kind ≠ .endOfInput).map .token

/-- The log of a reading: the tokens that were fetched, and the program if there is one. -/
inductive Program.LogsReading (source : String) : Except ParseError Program → List Event → Prop
  | accepted {p : Program} {fetched : List Token} (fetches : Fetches source (.ok p) fetched) :
      LogsReading source (.ok p)
        (Event.tokens fetched ++ [.parsed p.name p.declarations.length])
  | rejected {e : ParseError} {fetched : List Token} (fetches : Fetches source (.error e) fetched) :
      LogsReading source (.error e) (Event.tokens fetched)

section Tokens

variable {fetched : List Token} {t : Token}

private theorem Event.tokens_append (fetched fetched' : List Token) :
    tokens (fetched ++ fetched') = tokens fetched ++ tokens fetched' := by
  rw [tokens, List.filter_append, List.map_append]
  rfl

private theorem Event.tokens_eq (h : ∀ t ∈ fetched, t.kind ≠ .endOfInput) :
    tokens fetched = fetched.map .token := by
  rw [tokens, List.filter_eq_self.mpr]
  intro t ht
  exact decide_eq_true (h t ht)

private theorem Event.tokens_endOfInput (h : t.kind = .endOfInput) : tokens [t] = [] := by
  simp [tokens, h]

end Tokens

namespace Program

variable {source : String} {p : Program} {e : ParseError} {rest : Feed}

private theorem tokens_accepted (source : String) :
    Event.tokens (accepted source) = (accepted source).map .token :=
  Event.tokens_eq fun _ => kind_ne_of_mem_accepted

private theorem fetched_accepted {reply : Reply Program}
    (h : Parse.program.run (Feed.ofString source) = reply) :
    (Feed.ofString source).fetched reply.rest = accepted source ++ reply.rest.tokens.take 1 :=
  Feed.fetched_eq (congrArg Feed.tokens (feed_eq_accepted h))

private theorem ofStringLogged_of_ok (h : Parse.program.run (Feed.ofString source) = .ok p rest) :
    (ofStringLogged source).1 = (accepted source ++ rest.tokens.take 1).map Event.token ++
      [.parsed p.name p.declarations.length] := by
  have hfetched := fetched_accepted h
  simp only [ofStringLogged, h]
  exact congrArg (fun ts => ts.map Event.token ++ _) hfetched

private theorem ofStringLogged_of_error
    (h : Parse.program.run (Feed.ofString source) = .error e rest) :
    (ofStringLogged source).1 = (accepted source ++ rest.tokens.take 1).map Event.token := by
  have hfetched := fetched_accepted h
  simp only [ofStringLogged, h]
  exact congrArg (List.map Event.token) hfetched

private theorem rest_eq_nil {ending : Ending} {reply : Reply Program}
    (h : Parse.program.run (Feed.ofString source) = reply)
    (hfeed : Feed.ofString source = ⟨accepted source, ending⟩) : reply.rest.tokens = [] := by
  have htokens := congrArg Feed.tokens (hfeed.symm.trans (feed_eq_accepted h))
  exact List.self_eq_append_right.mp htokens

private theorem logs_accepted (h : Parse.program.run (Feed.ofString source) = .ok p rest) :
    LogsReading source (.ok p) (ofStringLogged source).1 := by
  have hread : ofString source = .ok p := congrArg Reply.toExcept h
  obtain ⟨q, hfeed⟩ := feed_of_ok hread
  have hrest : rest.tokens = [] := rest_eq_nil h hfeed
  have hall : (Feed.ofString source).all = .ok (accepted source ++ [.atEnd q]) := by
    rw [hfeed]
    rfl
  have hlog := LogsReading.accepted (.all (p := p) hall)
  rw [Event.tokens_append, Event.tokens_endOfInput rfl, List.append_nil, tokens_accepted] at hlog
  rwa [ofStringLogged_of_ok h, hrest, List.take_nil, List.append_nil]

private theorem logs_misplaced {m : Misplaced}
    (h : Parse.program.run (Feed.ofString source) = .error (.misplaced m) rest) :
    LogsReading source (.error (.misplaced m)) (ofStringLogged source).1 := by
  have hread : ofString source = .error (.misplaced m) := congrArg Reply.toExcept h
  obtain ⟨⟨s, hgives⟩, hfirst⟩ := gives_of_misplaced hread
  have hlog := LogsReading.rejected (.toMisplaced hgives hfirst)
  rw [Event.tokens_append, tokens_accepted] at hlog
  rw [ofStringLogged_of_error h, List.map_append]
  rcases exists_feed_of_misplaced hread with ⟨q, hfound, hfeed⟩ | ⟨hkind, us, ending, -, hrun⟩
  · have hrest : rest.tokens = [] := rest_eq_nil h hfeed
    rw [hfound, Event.tokens_endOfInput rfl] at hlog
    rwa [hrest]
  · obtain rfl : rest = ⟨m.found :: us, ending⟩ := congrArg Reply.rest (h.symm.trans hrun)
    rwa [Event.tokens_eq (List.forall_mem_singleton.mpr hkind)] at hlog

private theorem logs_fault {e : LexError}
    (h : Parse.program.run (Feed.ofString source) = .error (.lexical e) rest) :
    LogsReading source (.error (.lexical e)) (ofStringLogged source).1 := by
  have hread : ofString source = .error (.lexical e) := congrArg Reply.toExcept h
  have hfeed := feed_of_lexical hread
  have hrest : rest.tokens = [] := rest_eq_nil h hfeed
  obtain ⟨s, hgives, hending⟩ := Feed.exists_gives (.ofString source)
  change (Scanner.ofString source).Gives (Feed.ofString source).tokens s at hgives
  change Feed.ofScanner s = ⟨[], (Feed.ofString source).ending⟩ at hending
  rw [hfeed] at hgives hending
  obtain ⟨s', hfault⟩ := Feed.next_of_fault hending
  have hlog := LogsReading.rejected (.toFault hgives hfault)
  rw [tokens_accepted] at hlog
  rwa [ofStringLogged_of_error h, hrest, List.take_nil, List.append_nil]

/-- A reading logs what it fetches, and nothing from behind that. -/
theorem logsReading (source : String) :
    LogsReading source (ofString source) (ofStringLogged source).1 := by
  have hread : (Parse.program.run (Feed.ofString source)).toExcept = ofString source := rfl
  rw [← hread]
  cases h : Parse.program.run (Feed.ofString source) with
  | ok p rest => exact logs_accepted h
  | error e rest =>
    cases e with
    | lexical e => exact logs_fault h
    | misplaced m => exact logs_misplaced h

end Program

end MiniPascal
