import Mathlib.Data.List.Basic
import MiniPascal.Proofs.Grammar.Locality
import MiniPascal.Proofs.Grammar.Recognition
import MiniPascal.Proofs.Token.Fetching
import MiniPascal.Proofs.Token.Placement

/-!
One token of lookahead. What becomes of a text is settled by the tokens that are accepted and by
what stands behind them: a token out of place, a fault or the end of the text. Nothing further on
has a part in it, as `Program.settled_by_lookahead` says.
-/

set_option autoImplicit false
set_option relaxedAutoImplicit false

namespace MiniPascal

/-- What an error is about stands in front. -/
def Feed.Shows (feed : Feed) : ParseError → Prop
  | .lexical e => feed = ⟨[], .fault e⟩
  | .misplaced m => feed.front? = some m.found

def Reply.Shows {α : Type} (reply : Reply α) : Prop :=
  ∀ e rest, reply = .error e rest → rest.Shows e

namespace Parse

variable {α β γ : Type} {feed : Feed} {rules : List Rule}

private theorem shows_bind {p : Parse α} {g : α → Parse β} (hp : (p.run feed).Shows)
    (hg : ∀ a mid, p.run feed = .ok a mid → ((g a).run mid).Shows) :
    ((p >>= g).run feed).Shows := by
  intro e rest h
  rw [run_bind] at h
  cases hrun : p.run feed with
  | ok a mid =>
    rw [hrun] at h
    exact hg a mid hrun e rest h
  | error e' mid =>
    rw [hrun] at h
    cases h
    exact hp e rest hrun

private theorem shows_pure (a : α) : ((pure a : Parse α).run feed).Shows := by
  rintro e rest ⟨⟩

private theorem shows_current : (current.run feed).Shows := by
  intro e rest h
  obtain ⟨tokens, ending⟩ := feed
  cases tokens with
  | cons t ts => cases h
  | nil =>
    cases ending <;> cases h
    rfl

private theorem shows_refuse (expected : Expectation) :
    ((refuse rules expected : Parse α).run feed).Shows := by
  refine shows_bind shows_current ?_
  rintro t mid hcurrent e rest ⟨⟩
  exact (run_current_eq_ok.mp hcurrent).2 ▸ (run_current_eq_ok.mp hcurrent).1

private theorem shows_many {accept? : TokenKind → Option β} {item : β → Parse γ}
    (h : ∀ b feed, ((item b).run feed).Shows) : ((many accept? item).run feed).Shows := by
  induction feed using manyInduction item with
  | nil ending =>
    rw [run_many_nil]
    cases ending with
    | finish p => exact shows_pure []
    | fault e =>
      rintro _ _ ⟨⟩
      rfl
  | cons t ts ending ih =>
    rw [run_many_cons]
    split
    · exact shows_pure []
    · rename_i b _
      exact shows_bind (h b _) fun c mid hc =>
        shows_bind (ih b c mid hc) fun cs _ _ => shows_pure _

private theorem Composed.shows {p : Parse α} (h : Composed p) (feed : Feed) :
    (p.run feed).Shows := by
  induction h generalizing feed with
  | pure a => exact shows_pure a
  | bind _ _ hp hg => exact shows_bind (hp feed) fun a mid _ => hg a mid
  | look _ _ hg => exact shows_bind shows_current fun t mid _ => hg t mid
  | advance => rintro _ _ ⟨⟩
  | refuse rules expected => exact shows_refuse expected
  | many _ hitem => exact shows_many hitem

end Parse

namespace Program

/-- The tokens that are taken off while a text is read. -/
def accepted (source : String) : List Token :=
  let feed := Feed.ofString source
  feed.tokens.take (feed.tokens.length - (Parse.program.run feed).rest.tokens.length)

variable {source source' : String} {s : Scanner} {m : Misplaced}

theorem feed_eq_accepted {reply : Reply Program}
    (h : Parse.program.run (Feed.ofString source) = reply) :
    Feed.ofString source = ⟨accepted source ++ reply.rest.tokens, reply.rest.ending⟩ := by
  obtain ⟨hsuffix, hending⟩ := Parse.program.behind (Feed.ofString source)
  have htokens := List.suffix_iff_eq_append.mp hsuffix
  rw [accepted, ← h, htokens, hending]

theorem kind_ne_of_mem_accepted {t : Token} (h : t ∈ accepted source) : t.kind ≠ .endOfInput :=
  Feed.kind_ne_endOfInput_of_mem (.ofString source) t (List.mem_of_mem_take h)

theorem exists_feed_of_misplaced (h : ofString source = .error (.misplaced m)) :
    (∃ p, m.found = .atEnd p ∧ Feed.ofString source = ⟨accepted source, .finish p⟩) ∨
      m.found.kind ≠ .endOfInput ∧ ∃ us ending,
        Feed.ofString source = ⟨accepted source ++ m.found :: us, ending⟩ ∧
          Parse.program.run (Feed.ofString source) =
            .error (.misplaced m) ⟨m.found :: us, ending⟩ := by
  obtain ⟨⟨tokens, ending⟩, hrun⟩ := ofString_eq_error_iff.mp h
  have hfront : Feed.front? ⟨tokens, ending⟩ = some m.found :=
    Parse.composed_program.shows _ _ _ hrun
  have hfeed := feed_eq_accepted hrun
  cases tokens with
  | nil =>
    cases ending with
    | fault e => cases hfront
    | finish p =>
      have hfound : Token.atEnd p = m.found := Option.some.inj hfront
      refine .inl ⟨p, hfound.symm, ?_⟩
      rwa [Reply.rest, List.append_nil] at hfeed
  | cons t us =>
    have hfound : t = m.found := Option.some.inj hfront
    subst hfound
    refine .inr ⟨?_, us, ending, hfeed, hrun⟩
    apply Feed.kind_ne_endOfInput_of_mem (.ofString source)
    have hmem : m.found ∈ (Feed.ofString source).tokens := by
      rw [hfeed]
      exact List.mem_append_right _ List.mem_cons_self
    exact hmem

private theorem ofString_eq_of_gives {ending : Ending}
    (h : Feed.ofString source = ⟨accepted source, ending⟩)
    (hgives : (Scanner.ofString source').Gives (accepted source) s)
    (hending : Feed.ofScanner s = ⟨[], ending⟩) : ofString source' = ofString source := by
  have hfeed := Feed.ofScanner_of_gives hgives fun t => kind_ne_of_mem_accepted
  rw [hending, List.append_nil] at hfeed
  exact congrArg (fun feed => (Parse.program.run feed).toExcept) (hfeed.trans h.symm)

private theorem misplaced_of_gives (h : ofString source = .error (.misplaced m))
    (hgives : (Scanner.ofString source').Gives (accepted source ++ [m.found]) s) :
    ofString source' = .error (.misplaced m) := by
  rcases exists_feed_of_misplaced h with ⟨p, hfound, hfeed⟩ | ⟨hkind, us, ending, hfeed, hrun⟩
  · obtain ⟨s', hfront, hend⟩ := Scanner.gives_append.mp hgives
    rw [hfound] at hend
    cases hend with
    | cons hnext _ =>
      rw [ofString_eq_of_gives hfeed hfront (Feed.ofScanner_of_endOfInput hnext rfl), h]
  · have hall : ∀ t ∈ accepted source ++ [m.found], t.kind ≠ .endOfInput :=
      List.forall_mem_append.mpr
        ⟨fun t => kind_ne_of_mem_accepted, List.forall_mem_singleton.mpr hkind⟩
    have hfeed' : Feed.ofString source' = _ := Feed.ofScanner_of_gives hgives hall
    rw [List.append_assoc, List.singleton_append] at hfeed'
    let fork : Fork := ⟨m.found, ⟨us, ending⟩, Feed.ofScanner s⟩
    rw [hfeed] at hrun
    change Parse.program.run (fork.one (accepted source)) =
      .error (.misplaced m) (fork.one []) at hrun
    refine ofString_eq_error_iff.mpr ⟨fork.other [], ?_⟩
    rw [hfeed']
    exact Parse.local_program.run_error hrun

private theorem not_mem_of_feed_eq {ts us : List Token} {t : Token} {ending : Ending}
    (h : Feed.ofString source = ⟨ts ++ t :: us, ending⟩) : t ∉ ts ∧ t ∉ us := by
  obtain ⟨pieces, gap, rest, htokens, hsource, hlaid, -, -⟩ := Feed.exists_pieces source
  have hordered : Ordered (Feed.ofString source).tokens := htokens ▸ hlaid.ordered hsource
  rw [h] at hordered
  obtain ⟨-, hback, hfront⟩ := List.pairwise_append.mp hordered.apart
  constructor
  · intro hmem
    exact Position.lt_irrefl _ (hfront t hmem t List.mem_cons_self).1
  · intro hmem
    exact Position.lt_irrefl _ (List.rel_of_pairwise_cons hback hmem).1

theorem gives_of_misplaced (h : ofString source = .error (.misplaced m)) :
    (∃ s, (Scanner.ofString source).Gives (accepted source ++ [m.found]) s) ∧
      m.found ∉ accepted source := by
  obtain ⟨s, hgives, hending⟩ := Feed.exists_gives (.ofString source)
  change (Scanner.ofString source).Gives (Feed.ofString source).tokens s at hgives
  change Feed.ofScanner s = ⟨[], (Feed.ofString source).ending⟩ at hending
  rcases exists_feed_of_misplaced h with ⟨p, hfound, hfeed⟩ | ⟨-, us, ending, hfeed, -⟩
  · rw [hfeed] at hgives hending
    refine ⟨⟨_, hfound ▸ hgives.snoc (Feed.next_of_finish hending)⟩, ?_⟩
    intro hmem
    rw [hfound] at hmem
    exact kind_ne_of_mem_accepted hmem rfl
  · rw [hfeed, List.append_cons] at hgives
    obtain ⟨s', hfront, -⟩ := Scanner.gives_append.mp hgives
    exact ⟨⟨s', hfront⟩, (not_mem_of_feed_eq hfeed).1⟩

theorem feed_of_lexical {e : LexError} (h : ofString source = .error (.lexical e)) :
    Feed.ofString source = ⟨accepted source, .fault e⟩ := by
  obtain ⟨rest, hrun⟩ := ofString_eq_error_iff.mp h
  have hrest : rest = ⟨[], .fault e⟩ := Parse.composed_program.shows _ _ _ hrun
  have hfeed := feed_eq_accepted hrun
  rwa [Reply.rest, hrest, List.append_nil] at hfeed

theorem feed_of_ok {p : Program} (h : ofString source = .ok p) :
    ∃ q, Feed.ofString source = ⟨accepted source, .finish q⟩ := by
  have hends := Feed.kind_ne_endOfInput_of_mem (.ofString source)
  change (Parse.program.run (Feed.ofString source)).toExcept = .ok p at h
  cases hrun : Parse.program.run (Feed.ofString source) with
  | error e rest =>
    rw [hrun] at h
    cases h
  | ok p' rest =>
    obtain ⟨-, -, -, -, q, rfl⟩ := (Parse.run_program_eq_ok hends).mp hrun
    have hfeed := feed_eq_accepted hrun
    rw [Reply.rest, List.append_nil] at hfeed
    exact ⟨q, hfeed⟩

/-- A token that is accepted in one text is not out of place in another one that begins with the
same tokens. -/
private theorem found_not_mem_of_gives (h : ofString source' = .error (.misplaced m))
    (haccepted : ∀ m, ofString source ≠ .error (.misplaced m))
    (hgives : (Scanner.ofString source').Gives (accepted source) s) :
    m.found ∉ accepted source := by
  intro hmem
  obtain ⟨front, back, hsplit⟩ := List.append_of_mem hmem
  rcases exists_feed_of_misplaced h with ⟨p, hfound, -⟩ | ⟨-, us, ending, hfeed, -⟩
  · rw [hfound] at hmem
    exact kind_ne_of_mem_accepted hmem rfl
  · have hfeed' : Feed.ofString source' = _ :=
      Feed.ofScanner_of_gives hgives fun t => kind_ne_of_mem_accepted
    -- The token stands in one place of the other text, so the same tokens are accepted before it.
    rw [hfeed, hsplit, List.append_assoc, List.cons_append] at hfeed'
    obtain ⟨hbefore, hbehind⟩ := not_mem_of_feed_eq hfeed
    have hfront : accepted source' = front :=
      ((List.append_cons_inj_of_notMem hbefore hbehind).mp (congrArg Feed.tokens hfeed')).1
    obtain ⟨s', hsource, -⟩ := Feed.exists_gives (.ofString source)
    obtain ⟨more, hmore⟩ : accepted source <+: (Feed.ofString source).tokens :=
      List.take_prefix _ _
    change (Scanner.ofString source).Gives (Feed.ofString source).tokens s' at hsource
    rw [← hmore, hsplit, List.append_assoc, List.cons_append, List.append_cons, ← hfront] at hsource
    obtain ⟨s'', hbegins, -⟩ := Scanner.gives_append.mp hsource
    exact haccepted m (misplaced_of_gives h hbegins)

/-- What becomes of a text depends on the tokens that are accepted and on what is found behind them,
and on nothing else. A token that is out of place is none of those before it. Where a fault is
found, all tokens before it are accepted, so none of them is out of place in any text that begins
with them. A program is accepted to its last token, and behind that the end of the text is found. -/
theorem settled_by_lookahead (source : String) :
    (∀ m, ofString source = .error (.misplaced m) →
      (∃ s, (Scanner.ofString source).Gives (accepted source ++ [m.found]) s) ∧
        m.found ∉ accepted source ∧
        ∀ source' s, (Scanner.ofString source').Gives (accepted source ++ [m.found]) s →
          ofString source' = .error (.misplaced m)) ∧
    (∀ e, ofString source = .error (.lexical e) →
      (∃ s s', (Scanner.ofString source).Gives (accepted source) s ∧ s.next = (.error e, s')) ∧
        (Feed.ofString source).all = .error e ∧
        ∀ source' s, (Scanner.ofString source').Gives (accepted source) s →
          (∀ s', s.next = (.error e, s') → ofString source' = .error (.lexical e)) ∧
            ∀ m, ofString source' = .error (.misplaced m) → m.found ∉ accepted source) ∧
    ∀ p, ofString source = .ok p → ∃ q,
      (Scanner.ofString source).Gives (accepted source ++ [.atEnd q]) ⟨[], q⟩ ∧
        (Feed.ofString source).all = .ok (accepted source ++ [.atEnd q]) ∧
        ∀ source' s, (Scanner.ofString source').Gives (accepted source ++ [.atEnd q]) s →
          ofString source' = .ok p := by
  obtain ⟨s, hgives, hending⟩ := Feed.exists_gives (.ofString source)
  change (Scanner.ofString source).Gives (Feed.ofString source).tokens s at hgives
  change Feed.ofScanner s = ⟨[], (Feed.ofString source).ending⟩ at hending
  refine ⟨?_, ?_, ?_⟩
  · intro m hm
    obtain ⟨hsource, hfresh⟩ := gives_of_misplaced hm
    exact ⟨hsource, hfresh, fun source' s => misplaced_of_gives hm⟩
  · intro e he
    have hfeed := feed_of_lexical he
    rw [hfeed] at hgives hending
    obtain ⟨s', hnext⟩ := Feed.next_of_fault hending
    refine ⟨⟨s, s', hgives, hnext⟩, by rw [hfeed]; rfl, ?_⟩
    intro source' s'' hgives'
    constructor
    · intro after hfault
      have hempty : Feed.ofScanner s'' = ⟨[], .fault e⟩ := by rw [Feed.ofScanner_eq, hfault]
      rw [ofString_eq_of_gives hfeed hgives' hempty, he]
    · intro m hm
      refine found_not_mem_of_gives hm ?_ hgives'
      intro m' hm'
      rw [he] at hm'
      cases hm'
  · intro p hp
    obtain ⟨q, hfeed⟩ := feed_of_ok hp
    rw [hfeed] at hgives hending
    refine ⟨q, hgives.snoc (Feed.next_of_finish hending), by rw [hfeed]; rfl, ?_⟩
    intro source' s' hgives'
    obtain ⟨s'', hfront, hend⟩ := Scanner.gives_append.mp hgives'
    cases hend with
    | cons hnext _ =>
      rw [ofString_eq_of_gives hfeed hfront (Feed.ofScanner_of_endOfInput hnext rfl), hp]

/-- A comment without an end is not come to where a token before it is out of place. -/
theorem rejected_before_comment :
    ∃ m, ofString "PROGRAM;" = .error (.misplaced m) ∧
      ofString "PROGRAM;\x7b" = .error (.misplaced m) := by
  let word : Token := ⟨.reserved .program, "PROGRAM", ⟨⟨1, 1⟩, ⟨1, 8⟩⟩⟩
  let semicolon : Token := ⟨.mark .semicolon, ";", ⟨⟨1, 8⟩, ⟨1, 9⟩⟩⟩
  have hfeed : Feed.ofString "PROGRAM;" = ⟨[word, semicolon], .finish ⟨1, 9⟩⟩ := by decide +kernel
  have hrun : Parse.program.run (Feed.ofString "PROGRAM;") =
      .error (.misplaced ⟨.identifier, semicolon, [.program]⟩) ⟨[semicolon], .finish ⟨1, 9⟩⟩ := by
    rw [hfeed]
    rfl
  have hm := ofString_eq_error_iff.mpr ⟨_, hrun⟩
  have haccepted : accepted "PROGRAM;" = [word] := by
    rw [accepted, hrun, hfeed]
    rfl
  have hword : (Scanner.ofString "PROGRAM;\x7b").next = (.ok word, ⟨[';', '{'], ⟨1, 8⟩⟩) := rfl
  have hsemicolon : Scanner.next ⟨[';', '{'], ⟨1, 8⟩⟩ = (.ok semicolon, ⟨['{'], ⟨1, 9⟩⟩) := rfl
  refine ⟨_, hm, ((settled_by_lookahead "PROGRAM;").1 _ hm).2.2 "PROGRAM;\x7b" ⟨['{'], ⟨1, 9⟩⟩ ?_⟩
  rw [haccepted]
  exact .cons hword (.single hsemicolon)

end Program

end MiniPascal
