import MiniPascal.Proofs.Grammar.Reading
import MiniPascal.Proofs.Number.ReadBack
import MiniPascal.Proofs.Token.MaximalMunch

/-!
Lexing what has been written. A piece of text is lexed into its tokens wherever it stands, if what
follows parts it from the next one.
-/

set_option autoImplicit false
set_option relaxedAutoImplicit false

namespace MiniPascal

open Recogniser (continuesWord)

/-- From any place on, the tokens of a text are those of the given kinds and then those of the rest
of the text. -/
def Lexes (text : List Char) (kinds : List TokenKind) (rest : List Char) : Prop :=
  ∀ p, ∃ q, (Feed.ofScanner ⟨text, p⟩).Reads kinds (Feed.ofScanner ⟨rest, q⟩)

def EndsWord (rest : List Char) : Prop :=
  ∀ c ∈ rest.head?, continuesWord c = false

/-- Neither a word nor a number goes on here. -/
def Parted (rest : List Char) : Prop :=
  ∀ c ∈ rest.head?, continuesWord c = false ∧ c ≠ '.'

namespace Feed

private theorem reads_of_next {s after : Scanner} {t : Token} (h : s.next = (.ok t, after))
    (ht : t.kind ≠ .endOfInput) : (ofScanner s).Reads [t.kind] (ofScanner after) := by
  rw [ofScanner_eq s, h, reads_singleton]
  simp only [if_neg ht]
  exact ⟨t, rfl, rfl, trivial⟩

private theorem ofScanner_congr {s s' : Scanner} (h : s.next = s'.next) :
    ofScanner s = ofScanner s' := by
  rw [ofScanner_eq s, ofScanner_eq s', h]

end Feed

namespace Lexes

variable {text rest rest' : List Char} {k : TokenKind} {ks ks' : List TokenKind}

theorem nil (text : List Char) : Lexes text [] text := by
  intro p
  exact ⟨p, Feed.reads_nil.mpr rfl⟩

theorem append (h : Lexes text ks rest) (h' : Lexes rest ks' rest') :
    Lexes text (ks ++ ks') rest' := by
  intro p
  obtain ⟨q, hq⟩ := h p
  obtain ⟨q', hq'⟩ := h' q
  exact ⟨q', Feed.reads_append.mpr ⟨_, hq, hq'⟩⟩

theorem cons (h : Lexes text [k] rest) (h' : Lexes rest ks rest') : Lexes text (k :: ks) rest' :=
  h.append h'

private theorem blank {c : Char} (hc : Text.isBlank c = true) (h : Lexes text ks rest) :
    Lexes (c :: text) ks rest := by
  intro p
  obtain ⟨q, hq⟩ := h (p.advanceOver [c])
  refine ⟨q, ?_⟩
  have hskip := skipFrom_trivia (.blank hc .nil) text p
  have hnext : Scanner.next ⟨c :: text, p⟩ = Scanner.next ⟨text, p.advanceOver [c]⟩ := by
    simp only [Scanner.next, Scanner.nextBy, Scanner.skip]
    rw [← hskip]
    rfl
  rw [Feed.ofScanner_congr hnext]
  exact hq

theorem space (h : Lexes text ks rest) : Lexes (' ' :: text) ks rest :=
  h.blank rfl

theorem newline (h : Lexes text ks rest) : Lexes ('\n' :: text) ks rest :=
  h.blank rfl

private theorem of_longestOffer {lexeme : List Char} {kind : TokenKind}
    (h : LongestOffer (lexeme ++ rest) lexeme kind) : Lexes (lexeme ++ rest) [kind] rest := by
  intro p
  have hnext := next_token (p := p) .nil h
  exact ⟨_, Feed.reads_of_next hnext h.1.1.kind_ne_endOfInput⟩

end Lexes

section Pieces

variable {lexeme rest : List Char}

theorem Parted.cons {c : Char} {cs : List Char} (h : continuesWord c = false ∧ c ≠ '.') :
    Parted (c :: cs) := by
  intro d hd
  obtain rfl : c = d := by simpa using hd
  exact h

theorem EndsWord.cons {c : Char} {cs : List Char} (h : continuesWord c = false) :
    EndsWord (c :: cs) := by
  intro d hd
  obtain rfl : c = d := by simpa using hd
  exact h

theorem Parted.endsWord (h : Parted rest) : EndsWord rest :=
  fun c hc => (h c hc).1

private theorem isDigit_eq_false_of_parted (h : Parted rest) :
    ∀ c ∈ rest.head?, c.isDigit = false := by
  intro c hc
  have hcontinues := (h c hc).1
  cases hdigit : c.isDigit with
  | false => rfl
  | true => simp [continuesWord, Char.isAlphanum, hdigit] at hcontinues

theorem lexes_mark (m : Mark) (hdot : m = .dot → ∀ c ∈ rest.head?, c.isDigit = false)
    (hcolon : m = .colon → ∀ c ∈ rest.head?, c ≠ '=') : Lexes (m.chars ++ rest) [.mark m] rest := by
  have hoffer : Offers (m.chars ++ rest) m.chars (.mark m) :=
    ⟨.mark m, rest, rfl, fun _ _ => rfl⟩
  apply Lexes.of_longestOffer
  apply longestOffer_of_offers hoffer
  · intro hm
    exact hdot (by simpa using hm)
  · intro hm
    exact hcolon (by simpa using hm)

theorem lexes_plain_mark {m : Mark} (hdot : m ≠ .dot) (hcolon : m ≠ .colon) :
    Lexes (m.chars ++ rest) [.mark m] rest :=
  lexes_mark m (fun h => absurd h hdot) (fun h => absurd h hcolon)

theorem lexes_reserved (w : Reserved) (hrest : EndsWord rest) :
    Lexes (w.text.toList ++ rest) [.reserved w] rest := by
  have hoffer : Offers (w.text.toList ++ rest) w.text.toList (.reserved w) :=
    ⟨.reserved w, rest, rfl, hrest⟩
  apply Lexes.of_longestOffer
  exact longestOffer_of_offers hoffer (by simp) (by simp)

/-- A name can stand in a program: it is a word, and not a reserved one. -/
def IsName (name : String) : Prop :=
  IsWord name.toList ∧ ∀ w : Reserved, w.text ≠ name

private theorem spells_name {name : String} (h : IsName name) :
    Spells name.toList (.identifier name) := by
  have hfree : ∀ w : Reserved, w.text.toList ≠ name.toList := by
    intro w hw
    exact h.2 w (String.toList_inj.mp hw)
  have hspells := Spells.identifier h.1 hfree
  rwa [String.ofList_toList] at hspells

theorem lexes_name {name : String} (h : IsName name) (hrest : EndsWord rest) :
    Lexes (name.toList ++ rest) [.identifier name] rest := by
  have hoffer : Offers (name.toList ++ rest) name.toList (.identifier name) :=
    ⟨spells_name h, rest, rfl, hrest⟩
  apply Lexes.of_longestOffer
  exact longestOffer_of_offers hoffer (by simp) (by simp)

private theorem spells_integer {n : Int64} (hn : 0 ≤ n.toInt) :
    Spells (Integer.write n) (.integer n) := by
  have hwrite : Integer.write n = Nat.toDigits 10 n.toInt.natAbs := by
    simp [Integer.write, Int.not_lt.mpr hn]
  rw [hwrite]
  refine .integer Nat.toDigits_ne_nil ?_ ?_
  · intro c hc
    exact Nat.isDigit_of_mem_toDigits (by decide) (by decide) hc
  · rw [Nat.ofDigitChars_ten_toDigits]
    omega

theorem lexes_integer {n : Int64} (hn : 0 ≤ n.toInt) (hrest : Parted rest) :
    Lexes (Integer.write n ++ rest) [.integer n] rest := by
  have hoffer : Offers (Integer.write n ++ rest) (Integer.write n) (.integer n) := by
    refine ⟨spells_integer hn, rest, rfl, ?_⟩
    intro c hc
    simp [TokenKind.grows, isDigit_eq_false_of_parted hrest c hc, (hrest c hc).2]
  apply Lexes.of_longestOffer
  exact longestOffer_of_offers hoffer (by simp) (by simp)

private theorem spells_real {x : Binary64} (finite : x.isFinite = true)
    (positive : x.negative = false) : Spells (RealStyle.value.write x) (.real x) := by
  obtain ⟨whole, fraction, htext, some_digit, all_digits, hvalue⟩ :=
    RealStyle.exists_write finite positive
  have hspells := Spells.real some_digit all_digits (by rw [hvalue]; exact finite)
  rw [hvalue] at hspells
  rw [htext]
  exact hspells

theorem lexes_real {x : Binary64} (finite : x.isFinite = true) (positive : x.negative = false)
    (hrest : Parted rest) : Lexes (RealStyle.value.write x ++ rest) [.real x] rest := by
  have hoffer : Offers (RealStyle.value.write x ++ rest) (RealStyle.value.write x) (.real x) :=
    ⟨spells_real finite positive, rest, rfl, isDigit_eq_false_of_parted hrest⟩
  apply Lexes.of_longestOffer
  exact longestOffer_of_offers hoffer (by simp) (by simp)

end Pieces

end MiniPascal
