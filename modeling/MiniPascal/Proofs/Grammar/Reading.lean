import MiniPascal.Grammar.Parse

/-!
What the steps of reading take off a feed. For each step there is one law that says when it
succeeds, with what result and what rest; the laws for sequences and repetitions build on those of
their parts.
-/

set_option autoImplicit false
set_option relaxedAutoImplicit false

namespace MiniPascal

namespace Feed

/-- Between a feed and what is left of it stand tokens of the given kinds. -/
def Reads (feed : Feed) (kinds : List TokenKind) (rest : Feed) : Prop :=
  ∃ ts, feed.tokens = ts ++ rest.tokens ∧ ts.map Token.kind = kinds ∧ rest.ending = feed.ending

def front? (feed : Feed) : Option Token :=
  match feed.tokens, feed.ending with
  | t :: _, _ => some t
  | [], .finish p => some (.atEnd p)
  | [], .fault _ => none

def Stops (feed : Feed) (goesOn : TokenKind → Bool) : Prop :=
  ∃ t, feed.front? = some t ∧ goesOn t.kind = false

variable {feed mid rest : Feed} {k : TokenKind} {ks ks' : List TokenKind}

@[simp] theorem reads_nil : feed.Reads [] rest ↔ rest = feed := by
  obtain ⟨tokens, ending⟩ := feed
  obtain ⟨tokens', ending'⟩ := rest
  simp only [Reads, List.map_eq_nil_iff, Feed.mk.injEq]
  constructor
  · rintro ⟨ts, rfl, rfl, rfl⟩
    exact ⟨rfl, rfl⟩
  · rintro ⟨rfl, rfl⟩
    exact ⟨[], rfl, rfl, rfl⟩

theorem reads_append :
    feed.Reads (ks ++ ks') rest ↔ ∃ mid, feed.Reads ks mid ∧ mid.Reads ks' rest := by
  constructor
  · rintro ⟨ts, htokens, hkinds, hending⟩
    obtain ⟨us, vs, rfl, rfl, rfl⟩ := List.map_eq_append_iff.mp hkinds
    refine ⟨⟨vs ++ rest.tokens, feed.ending⟩, ⟨us, ?_, rfl, rfl⟩, vs, rfl, rfl, hending⟩
    rw [htokens, List.append_assoc]
  · rintro ⟨mid, ⟨us, hus, rfl, hmid⟩, vs, hvs, rfl, hrest⟩
    refine ⟨us ++ vs, ?_, List.map_append, hrest.trans hmid⟩
    rw [hus, hvs, List.append_assoc]

theorem reads_cons : feed.Reads (k :: ks) rest ↔ ∃ mid, feed.Reads [k] mid ∧ mid.Reads ks rest := by
  rw [← List.singleton_append, reads_append]

theorem reads_singleton : feed.Reads [k] rest ↔
    ∃ t, feed.tokens = t :: rest.tokens ∧ t.kind = k ∧ rest.ending = feed.ending := by
  constructor
  · rintro ⟨ts, htokens, hkinds, hending⟩
    obtain ⟨t, rfl, rfl⟩ := List.map_eq_singleton_iff.mp hkinds
    exact ⟨t, htokens, rfl, hending⟩
  · rintro ⟨t, htokens, rfl, hending⟩
    exact ⟨[t], htokens, rfl, hending⟩

theorem Reads.front (h : feed.Reads (k :: ks) rest) : ∃ t, feed.front? = some t ∧ t.kind = k := by
  obtain ⟨mid, h, -⟩ := reads_cons.mp h
  obtain ⟨t, ht, hk, -⟩ := reads_singleton.mp h
  exact ⟨t, by simp [front?, ht], hk⟩

theorem Stops.mono {goesOn goesOn' : TokenKind → Bool} (h : feed.Stops goesOn)
    (hle : ∀ k, goesOn k = false → goesOn' k = false) : feed.Stops goesOn' := by
  obtain ⟨t, ht, hk⟩ := h
  exact ⟨t, ht, hle _ hk⟩

theorem Reads.stops {goesOn : TokenKind → Bool} (h : feed.Reads (k :: ks) rest)
    (hk : goesOn k = false) : feed.Stops goesOn := by
  obtain ⟨t, ht, rfl⟩ := h.front
  exact ⟨t, ht, hk⟩

/-- A token in front that is not the end of the text can be taken off. -/
private theorem reads_of_front {t : Token} (ht : feed.front? = some t) (hk : t.kind ≠ .endOfInput) :
    feed.Reads [t.kind] rest ↔ rest = ⟨feed.tokens.tail, feed.ending⟩ := by
  obtain ⟨tokens, ending⟩ := feed
  obtain ⟨tokens', ending'⟩ := rest
  rw [reads_singleton]
  cases tokens with
  | nil =>
    cases ending with
    | finish p =>
      obtain rfl : Token.atEnd p = t := by simpa [front?] using ht
      exact absurd rfl hk
    | fault e => simp [front?] at ht
  | cons u us =>
    obtain rfl : u = t := by simpa [front?] using ht
    simp only [List.cons.injEq, List.tail_cons, Feed.mk.injEq]
    constructor
    · rintro ⟨v, ⟨-, rfl⟩, -, rfl⟩
      exact ⟨rfl, rfl⟩
    · rintro ⟨rfl, rfl⟩
      exact ⟨u, ⟨rfl, rfl⟩, rfl, rfl⟩

end Feed

namespace Parse

variable {α β γ : Type} {feed rest : Feed} {rules : List Rule}

theorem run_pure_eq_ok {a b : α} :
    (pure a : Parse α).run feed = .ok b rest ↔ a = b ∧ feed = rest := by
  simp

theorem run_bind_eq_ok {p : Parse α} {f : α → Parse β} {b : β} :
    (p >>= f).run feed = .ok b rest ↔
      ∃ a mid, p.run feed = .ok a mid ∧ (f a).run mid = .ok b rest := by
  rw [run_bind]
  cases p.run feed with
  | ok a mid =>
    constructor
    · intro h
      exact ⟨a, mid, rfl, h⟩
    · rintro ⟨_, _, ⟨⟩, h⟩
      exact h
  | error e mid => simp

theorem run_current_eq_ok {t : Token} :
    current.run feed = .ok t rest ↔ feed.front? = some t ∧ feed = rest := by
  obtain ⟨tokens, ending⟩ := feed
  cases tokens with
  | nil => cases ending <;> simp [current, Feed.front?]
  | cons u us => simp [current, Feed.front?]

theorem run_refuse_ne_ok {expected : Expectation} {a : α} :
    (refuse rules expected : Parse α).run feed ≠ .ok a rest := by
  unfold refuse
  rw [ne_eq, run_bind_eq_ok]
  rintro ⟨t, mid, -, h⟩
  cases h

theorem run_advance_eq_ok {u : Unit} :
    advance.run feed = .ok u rest ↔ rest = ⟨feed.tokens.tail, feed.ending⟩ := by
  simp [advance, eq_comm]

theorem run_advance_kind_eq_ok {t : Token} {k : TokenKind} (ht : feed.front? = some t)
    (hk : t.kind = k) (hne : k ≠ .endOfInput) :
    advance.run feed = .ok () rest ↔ feed.Reads [k] rest := by
  subst hk
  rw [run_advance_eq_ok, Feed.reads_of_front ht hne]

private theorem run_expect_eq_ok {kind : TokenKind} (hk : kind ≠ .endOfInput) {u : Unit} :
    (expect rules kind).run feed = .ok u rest ↔ feed.Reads [kind] rest := by
  simp only [expect, run_bind_eq_ok, run_current_eq_ok]
  constructor
  · rintro ⟨t, mid, ⟨ht, rfl⟩, h⟩
    split at h
    · rename_i heq
      exact (run_advance_kind_eq_ok ht heq hk).mp h
    · exact absurd h run_refuse_ne_ok
  · intro h
    obtain ⟨t, ht, heq⟩ := h.front
    refine ⟨t, feed, ⟨ht, rfl⟩, ?_⟩
    rw [if_pos heq]
    exact (run_advance_kind_eq_ok ht heq hk).mpr h

theorem run_expect_mark_eq_ok {m : Mark} {u : Unit} :
    (expect rules (.mark m)).run feed = .ok u rest ↔ feed.Reads [.mark m] rest :=
  run_expect_eq_ok (by simp)

theorem run_expect_reserved_eq_ok {w : Reserved} {u : Unit} :
    (expect rules (.reserved w)).run feed = .ok u rest ↔ feed.Reads [.reserved w] rest :=
  run_expect_eq_ok (by simp)

theorem run_identifier_eq_ok {name : String} :
    (identifier rules).run feed = .ok name rest ↔ feed.Reads [.identifier name] rest := by
  simp only [identifier, run_bind_eq_ok, run_current_eq_ok]
  constructor
  · rintro ⟨t, mid, ⟨ht, rfl⟩, h⟩
    split at h
    · rename_i name' heq
      simp only [run_bind_eq_ok, run_pure_eq_ok] at h
      obtain ⟨_, _, hadvance, rfl, rfl⟩ := h
      exact (run_advance_kind_eq_ok ht heq (by simp)).mp hadvance
    · exact absurd h run_refuse_ne_ok
  · intro h
    obtain ⟨t, ht, heq⟩ := h.front
    have hadvance := (run_advance_kind_eq_ok ht heq (by simp)).mpr h
    refine ⟨t, feed, ⟨ht, rfl⟩, ?_⟩
    rw [heq]
    exact run_bind_eq_ok.mpr ⟨(), rest, hadvance, rfl⟩

end Parse

/-- Items, the tokens they spell and the results they stand for. -/
structure Phrase (D α : Type) where
  fits : D → Prop
  yield : D → List TokenKind
  tree : D → α

namespace Phrase

section Basic

variable {D α : Type}

def row (f : Phrase D α) : Phrase (List D) (List α) where
  fits ds := ∀ d ∈ ds, f.fits d
  yield := List.flatMap f.yield
  tree := List.map f.tree

def behind (k : TokenKind) (f : Phrase D α) : Phrase D α where
  fits := f.fits
  yield d := k :: f.yield d
  tree := f.tree

/-- A step reads items, all of them and nothing else, where no token follows that goes on with
one. -/
structure ReadBy (f : Phrase D α) (p : Parse α) (goesOn : TokenKind → Bool) : Prop where
  sound : ∀ feed a rest, p.run feed = .ok a rest →
    ∃ d, f.fits d ∧ f.tree d = a ∧ feed.Reads (f.yield d) rest
  complete : ∀ d, f.fits d → ∀ feed rest, feed.Reads (f.yield d) rest → rest.Stops goesOn →
    p.run feed = .ok (f.tree d) rest

theorem ReadBy.mono {f : Phrase D α} {p : Parse α} {goesOn goesOn' : TokenKind → Bool}
    (h : f.ReadBy p goesOn) (hle : ∀ k, goesOn' k = false → goesOn k = false) :
    f.ReadBy p goesOn' := by
  refine ⟨h.sound, ?_⟩
  intro d hd feed rest hreads hstop
  exact h.complete d hd feed rest hreads (hstop.mono hle)

end Basic

section Repetition

open Parse (many only manyInduction run_many_nil run_many_cons run_bind_eq_ok run_pure_eq_ok)

variable {D β γ : Type} {f : Phrase D γ} {accept? : TokenKind → Option β} {item : β → Parse γ}

private theorem many_sound
    (hitem : ∀ k b, accept? k = some b → k ≠ .endOfInput ∧
      ∀ feed c rest, (item b).run feed = .ok c rest →
        ∃ d ks, f.fits d ∧ f.tree d = c ∧ f.yield d = k :: ks ∧ feed.Reads ks rest)
    (feed : Feed) (cs : List γ) (rest : Feed) (h : (many accept? item).run feed = .ok cs rest) :
    ∃ ds, f.row.fits ds ∧ f.row.tree ds = cs ∧ feed.Reads (f.row.yield ds) rest := by
  induction feed using manyInduction item generalizing cs with
  | nil ending =>
    rw [run_many_nil] at h
    cases ending <;> cases h
    exact ⟨[], List.forall_mem_nil _, rfl, Feed.reads_nil.mpr rfl⟩
  | cons t ts ending ih =>
    rw [run_many_cons] at h
    split at h
    · cases h
      exact ⟨[], List.forall_mem_nil _, rfl, Feed.reads_nil.mpr rfl⟩
    · rename_i b hb
      simp only [run_bind_eq_ok, run_pure_eq_ok] at h
      obtain ⟨c, mid, hc, cs', mid', hcs, rfl, rfl⟩ := h
      obtain ⟨hk, hread⟩ := hitem _ b hb
      obtain ⟨d, ks, hd, rfl, hyield, hreads⟩ := hread _ _ _ hc
      obtain ⟨ds, hds, rfl, hrest⟩ := ih b _ mid hc _ hcs
      refine ⟨d :: ds, List.forall_mem_cons.mpr ⟨hd, hds⟩, rfl, ?_⟩
      simp only [row, List.flatMap_cons]
      refine Feed.reads_append.mpr ⟨mid, ?_, hrest⟩
      rw [hyield, Feed.reads_cons]
      refine ⟨⟨ts, ending⟩, ?_, hreads⟩
      rw [Feed.reads_of_front rfl hk]
      rfl

private theorem many_complete {goesOn : TokenKind → Bool}
    (hitem : ∀ d, f.fits d → ∃ k b ks, f.yield d = k :: ks ∧ accept? k = some b ∧
      goesOn k = false ∧ ∀ feed rest, feed.Reads ks rest → rest.Stops goesOn →
        (item b).run feed = .ok (f.tree d) rest)
    (ds : List D) (hds : f.row.fits ds) (feed rest : Feed) (h : feed.Reads (f.row.yield ds) rest)
    (hstop : rest.Stops fun k => goesOn k || (accept? k).isSome) :
    (many accept? item).run feed = .ok (f.row.tree ds) rest := by
  obtain ⟨t, ht, hgoes⟩ := hstop
  rw [Bool.or_eq_false_iff] at hgoes
  have stops : rest.Stops goesOn := ⟨t, ht, hgoes.1⟩
  induction ds generalizing feed with
  | nil =>
    obtain rfl : rest = feed := Feed.reads_nil.mp h
    obtain ⟨tokens, ending⟩ := rest
    cases tokens with
    | nil =>
      cases ending with
      | finish p => rw [run_many_nil]; rfl
      | fault e => simp [Feed.front?] at ht
    | cons u us =>
      obtain rfl : u = t := by simpa [Feed.front?] using ht
      rw [run_many_cons]
      have hnone : accept? u.kind = none := by simpa using hgoes.2
      rw [hnone]
      rfl
  | cons d ds ih =>
    obtain ⟨hd, hds⟩ := List.forall_mem_cons.mp hds
    obtain ⟨k, b, ks, hyield, hb, -, hread⟩ := hitem d hd
    simp only [row, List.flatMap_cons, hyield, List.cons_append] at h
    obtain ⟨mid, hopen, h⟩ := Feed.reads_cons.mp h
    obtain ⟨mid', hd, hrest⟩ := Feed.reads_append.mp h
    -- The next item begins with a token that does not go on with this one.
    have hmid : mid'.Stops goesOn := by
      cases ds with
      | nil =>
        obtain rfl : rest = mid' := Feed.reads_nil.mp hrest
        exact stops
      | cons d' ds =>
        obtain ⟨k', _, ks', hyield', -, hgoes', -⟩ := hitem d' (hds d' List.mem_cons_self)
        rw [List.flatMap_cons, hyield', List.cons_append] at hrest
        exact hrest.stops hgoes'
    obtain ⟨u, hu, hkind, hending⟩ := Feed.reads_singleton.mp hopen
    obtain ⟨tokens, ending⟩ := feed
    obtain rfl : tokens = u :: mid.tokens := hu
    obtain rfl : mid.ending = ending := hending
    rw [run_many_cons, hkind, hb]
    simp only [run_bind_eq_ok, run_pure_eq_ok]
    exact ⟨_, _, hread _ _ hd hmid, _, _, ih hds _ hrest, rfl, rfl⟩

theorem many_readBy (goesOn : TokenKind → Bool)
    (hsound : ∀ k b, accept? k = some b → k ≠ .endOfInput ∧
      ∀ feed c rest, (item b).run feed = .ok c rest →
        ∃ d ks, f.fits d ∧ f.tree d = c ∧ f.yield d = k :: ks ∧ feed.Reads ks rest)
    (hcomplete : ∀ d, f.fits d → ∃ k b ks, f.yield d = k :: ks ∧ accept? k = some b ∧
      goesOn k = false ∧ ∀ feed rest, feed.Reads ks rest → rest.Stops goesOn →
        (item b).run feed = .ok (f.tree d) rest) :
    f.row.ReadBy (many accept? item) fun k => goesOn k || (accept? k).isSome :=
  ⟨many_sound hsound, many_complete hcomplete⟩

theorem many_only_readBy {p : Parse γ} {goesOn : TokenKind → Bool} (k : TokenKind)
    (hk : k ≠ .endOfInput) (hgoes : goesOn k = false) (h : f.ReadBy p goesOn) :
    (f.behind k).row.ReadBy (many (only k) fun _ => p) fun k' => goesOn k' || k' = k := by
  have hrow : (f.behind k).row.ReadBy (many (only k) fun _ => p)
      fun k' => goesOn k' || (only k k').isSome := by
    apply many_readBy goesOn
    · intro k' _ hk'
      obtain rfl : k' = k := by simpa [only] using hk'
      refine ⟨hk, ?_⟩
      intro feed c rest hc
      obtain ⟨d, hd, rfl, hreads⟩ := h.sound _ _ _ hc
      exact ⟨d, f.yield d, hd, rfl, rfl, hreads⟩
    · intro d hd
      exact ⟨k, (), f.yield d, rfl, by simp [only], hgoes, h.complete d hd⟩
  exact hrow.mono fun k' hk' => by simpa [only] using hk'

end Repetition

end Phrase

end MiniPascal
