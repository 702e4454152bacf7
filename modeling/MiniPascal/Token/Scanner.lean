import MiniPascal.Token.Recogniser

/-!
The scanner takes tokens off a text one at a time. `length_lt_of_next` says that every token but
the end of the text shortens what is left.
-/

set_option autoImplicit false
set_option relaxedAutoImplicit false

namespace MiniPascal

namespace Text

/-- The ranges of code points with the property `White_Space`, ends included. -/
def blankRanges : List (Nat × Nat) :=
  [(0x9, 0xD), (0x20, 0x20), (0x85, 0x85), (0xA0, 0xA0), (0x1680, 0x1680), (0x2000, 0x200A),
    (0x2028, 0x2029), (0x202F, 0x202F), (0x205F, 0x205F), (0x3000, 0x3000)]

def isBlank (c : Char) : Bool :=
  blankRanges.any fun r => r.1 ≤ c.toNat && c.toNat ≤ r.2

end Text

/-- The text that is left, and the place where it begins. -/
structure Scanner where
  rest : List Char
  position : Position
  deriving DecidableEq

/-- What is left behind blanks and comments, or the two ends of a comment that is not closed. -/
inductive Skipped
  | clear (after : Scanner)
  | unclosed (opening finish : Position)

namespace Scanner

def ofString (source : String) : Scanner := ⟨source.toList, .start⟩

def drop (s : Scanner) (n : Nat) : Scanner :=
  ⟨s.rest.drop n, s.position.advanceOver (s.rest.take n)⟩

/-- Pass over blanks and comments. A comment runs from `{` to the first `}`; `opening` is where the
comment that we are in began. -/
def skipFrom (opening : Option Position) : List Char → Position → Skipped
  | [], p =>
    match opening with
    | none => .clear ⟨[], p⟩
    | some o => .unclosed o p
  | c :: cs, p =>
    match opening with
    | some o => skipFrom (if c = '}' then none else some o) cs (p.advance c)
    | none =>
      if c = '{' then skipFrom (some p) cs (p.advance c)
      else if Text.isBlank c then skipFrom none cs (p.advance c)
      else .clear ⟨c :: cs, p⟩

def skip (s : Scanner) : Skipped := skipFrom none s.rest s.position

/-- Why no class offers a token: a digit begins a number that is out of range, and any other
character begins nothing. -/
def offence (s : Scanner) (c : Char) : LexError :=
  if c.isDigit then
    .numberOutOfRange (String.ofList (Numeral.scan s.rest).chars) (.point s.position)
  else .strayCharacter c (.point s.position)

/-- The token at the start of a text without blanks or comments in front. What offends stays where
it is. -/
def take (s : Scanner) (classes : List Recogniser) : Except LexError Token × Scanner :=
  match s.rest with
  | [] => (.ok (.atEnd s.position), s)
  | c :: _ =>
    match Recogniser.longest s.rest classes with
    | some m =>
      let after := s.drop m.length
      let span := Span.join (.point s.position) (.point after.position)
      (.ok ⟨m.kind, String.ofList (s.rest.take m.length), span⟩, after)
    | none => (.error (s.offence c), s)

/-- The next token by the given classes. A comment that is not closed swallows the whole text. -/
def nextBy (classes : List Recogniser) (s : Scanner) : Except LexError Token × Scanner :=
  match s.skip with
  | .clear after => after.take classes
  | .unclosed opening finish =>
    (.error (.unclosedComment (.join (.point opening) (.point finish))), ⟨[], finish⟩)

/-- The next token; at the end of the text that is the end, again and again. -/
def next (s : Scanner) : Except LexError Token × Scanner := s.nextBy Recogniser.all

private theorem length_le_of_skipFrom {opening : Option Position} {text : List Char} {p : Position}
    {after : Scanner} (h : skipFrom opening text p = .clear after) :
    after.rest.length ≤ text.length := by
  induction text generalizing opening p with
  | nil =>
    cases opening with
    | none =>
      simp only [skipFrom, Skipped.clear.injEq] at h
      subst h
      exact Nat.le_refl _
    | some o => simp [skipFrom] at h
  | cons c cs ih =>
    unfold skipFrom at h
    split at h
    · exact Nat.le_succ_of_le (ih h)
    · split at h
      · exact Nat.le_succ_of_le (ih h)
      · split at h
        · exact Nat.le_succ_of_le (ih h)
        · simp only [Skipped.clear.injEq] at h
          subst h
          exact Nat.le_refl _

theorem length_lt_of_next {s after : Scanner} {t : Token} (h : s.next = (.ok t, after))
    (ht : t.kind ≠ .endOfInput) : after.rest.length < s.rest.length := by
  unfold next nextBy at h
  split at h
  · rename_i clear hclear
    have hle := length_le_of_skipFrom hclear
    unfold take at h
    split at h
    · cases h
      exact absurd rfl ht
    · rename_i c cs hcs
      split at h
      · rename_i m hm
        cases h
        have hp := m.length_pos
        have hl := m.length_le
        simp only [drop, List.length_drop]
        omega
      · cases h
  · cases h

end Scanner

end MiniPascal
