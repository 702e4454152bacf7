import MiniPascal.Token.Basic

/-!
The token classes. A recogniser offers a token at the start of a text or passes; of all offers the
longest is taken.
-/

set_option autoImplicit false
set_option relaxedAutoImplicit false

namespace MiniPascal

/-- A token at the start of a text, made of at least one and at most all of its characters. -/
structure Match (text : List Char) where
  kind : TokenKind
  length : Nat
  length_pos : 0 < length
  length_le : length ≤ text.length

abbrev Recogniser := (text : List Char) → Option (Match text)

/-- A digit run with an optional point and a second run behind it. -/
structure Numeral where
  whole : List Char
  fraction : Option (List Char)
  deriving DecidableEq

namespace Numeral

/-- The numeral at the start of a text, as long as it can be. Both runs may be empty. -/
def scan (text : List Char) : Numeral :=
  let whole := text.takeWhile Char.isDigit
  match text.dropWhile Char.isDigit with
  | '.' :: rest => ⟨whole, some (rest.takeWhile Char.isDigit)⟩
  | _ => ⟨whole, none⟩

def chars (n : Numeral) : List Char :=
  match n.fraction with
  | none => n.whole
  | some fraction => n.whole ++ '.' :: fraction

def hasDigit (n : Numeral) : Bool :=
  !n.whole.isEmpty || n.fraction.any fun fraction => !fraction.isEmpty

/-- Without a point it is an integer, with one a real; what fits in neither is no token. -/
def kind? (n : Numeral) : Option TokenKind :=
  match n.fraction with
  | none => (Integer.ofInt? (Nat.ofDigitChars 10 n.whole 0)).map .integer
  | some fraction =>
    let x := (Decimal.ofDigits n.whole fraction).toBinary64
    if x.isFinite then some (.real x) else none

theorem chars_append (text : List Char) : ∃ rest, (scan text).chars ++ rest = text := by
  have split := List.takeWhile_append_dropWhile (p := Char.isDigit) (l := text)
  unfold scan
  simp only
  split
  · rename_i rest h
    refine ⟨rest.dropWhile Char.isDigit, ?_⟩
    rw [h] at split
    simp only [chars, List.append_assoc, List.cons_append, List.takeWhile_append_dropWhile]
    exact split
  · exact ⟨_, split⟩

theorem length_chars_le (text : List Char) : (scan text).chars.length ≤ text.length := by
  obtain ⟨rest, h⟩ := chars_append text
  have := congrArg List.length h
  simp only [List.length_append] at this
  omega

theorem length_chars_pos {n : Numeral} (h : n.hasDigit = true) : 0 < n.chars.length := by
  obtain ⟨whole, fraction⟩ := n
  cases fraction with
  | none => cases whole <;> simp_all [hasDigit, chars]
  | some fraction => simp only [chars, List.length_append, List.length_cons]; omega

end Numeral

namespace Recogniser

def mark (m : Mark) : Recogniser := fun text =>
  if h : m.chars <+: text then some ⟨.mark m, m.chars.length, m.chars_length_pos, h.length_le⟩
  else none

def opensWord (c : Char) : Bool := c.isAlpha || c = '_'

def continuesWord (c : Char) : Bool := c.isAlphanum || c = '_'

/-- A word is reserved only as a whole. -/
def kindOfWord (word : String) : TokenKind :=
  match Reserved.ofText? word with
  | some w => .reserved w
  | none => .identifier word

def word : Recogniser
  | [] => none
  | c :: rest =>
    if opensWord c then
      let chars := c :: rest.takeWhile continuesWord
      some ⟨kindOfWord (String.ofList chars), chars.length, Nat.zero_lt_succ _,
        Nat.succ_le_succ (rest.takeWhile_prefix continuesWord).length_le⟩
    else none

/-- The whole numeral or nothing: one out of range is not cut short. -/
def number : Recogniser := fun text =>
  let numeral := Numeral.scan text
  if h : numeral.hasDigit then
    numeral.kind?.map fun kind =>
      ⟨kind, numeral.chars.length, Numeral.length_chars_pos h, Numeral.length_chars_le text⟩
  else none

def all : List Recogniser := Mark.all.map mark ++ [word, number]

/-- The longest offer; of equally long ones the first. -/
def longest (text : List Char) : List Recogniser → Option (Match text)
  | [] => none
  | r :: rs =>
    match r text, longest text rs with
    | some m, some n => if m.length < n.length then some n else some m
    | some m, none => some m
    | none, n => n

end Recogniser

end MiniPascal
