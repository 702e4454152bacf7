import Mathlib.Tactic.Common
import MiniPascal.Token.Recogniser

/-!
What the token classes offer, said without the recognisers: the lexemes of each kind of token, and
the characters that would make a lexeme longer. `longest_eq_some_iff` says that the recognisers
together find the longest offer and nothing else.
-/

set_option autoImplicit false
set_option relaxedAutoImplicit false

namespace MiniPascal

open Recogniser (opensWord continuesWord)

def IsWord : List Char → Prop
  | [] => False
  | c :: cs => opensWord c = true ∧ cs.all continuesWord = true

instance (w : List Char) : Decidable (IsWord w) :=
  match w with
  | [] => inferInstanceAs (Decidable False)
  | c :: cs =>
    inferInstanceAs (Decidable (opensWord c = true ∧ cs.all continuesWord = true))

/-- The lexemes of each kind of token. A word that is reserved is no identifier; digits without a
point are an integer if a 64-bit one has their value, and with a point a real if the nearest double
is finite. -/
inductive Spells : List Char → TokenKind → Prop
  | mark (m : Mark) : Spells m.chars (.mark m)
  | reserved (w : Reserved) : Spells w.text.toList (.reserved w)
  | identifier {w : List Char} (word : IsWord w) (free : ∀ r : Reserved, r.text.toList ≠ w) :
      Spells w (.identifier (String.ofList w))
  | integer {digits : List Char} {n : Int64} (some_digit : digits ≠ [])
      (all_digits : ∀ c ∈ digits, c.isDigit = true)
      (value : n.toInt = Nat.ofDigitChars 10 digits 0) : Spells digits (.integer n)
  | real {whole fraction : List Char} (some_digit : whole ++ fraction ≠ [])
      (all_digits : ∀ c ∈ whole ++ fraction, c.isDigit = true)
      (finite : (Decimal.ofDigits whole fraction).toBinary64.isFinite = true) :
      Spells (whole ++ '.' :: fraction) (.real (Decimal.ofDigits whole fraction).toBinary64)

/-- The characters that make a lexeme of a kind longer when they follow it. -/
def TokenKind.grows : TokenKind → Char → Bool
  | .integer _, c => c.isDigit || c = '.'
  | .real _, c => c.isDigit
  | .identifier _, c | .reserved _, c => continuesWord c
  | .mark _, _ | .endOfInput, _ => false

def TokenKind.Numeric : TokenKind → Prop
  | .integer _ | .real _ => True
  | _ => False

/-- A class offers a lexeme at the start of a text when what follows does not make it longer. -/
def Offers (text lexeme : List Char) (kind : TokenKind) : Prop :=
  Spells lexeme kind ∧ ∃ rest, text = lexeme ++ rest ∧ ∀ c ∈ rest.head?, kind.grows c = false

/-- An offer that no other offer exceeds. -/
def LongestOffer (text lexeme : List Char) (kind : TokenKind) : Prop :=
  Offers text lexeme kind ∧ ∀ lexeme' kind', Offers text lexeme' kind' →
    lexeme'.length ≤ lexeme.length

section Runs

variable {p : Char → Bool} {run rest : List Char}

private theorem takeWhile_run (hrun : ∀ c ∈ run, p c = true)
    (hrest : ∀ c ∈ rest.head?, p c = false) : (run ++ rest).takeWhile p = run := by
  rw [List.takeWhile_append_of_pos hrun]
  cases rest with
  | nil => simp
  | cons c cs =>
    have hc : p c = false := hrest c rfl
    simp [hc]

private theorem dropWhile_run (hrun : ∀ c ∈ run, p c = true)
    (hrest : ∀ c ∈ rest.head?, p c = false) : (run ++ rest).dropWhile p = rest := by
  rw [List.dropWhile_append_of_pos hrun]
  cases rest with
  | nil => rfl
  | cons c cs =>
    have hc : p c = false := hrest c rfl
    simp [hc]

private theorem of_mem_takeWhile {text : List Char} {c : Char} (h : c ∈ text.takeWhile p) :
    p c = true :=
  List.all_eq_true.mp List.all_takeWhile c h

private theorem head?_dropWhile {text : List Char} {c : Char} (h : c ∈ (text.dropWhile p).head?) :
    p c = false := by
  have hn := List.head?_dropWhile_not p text
  rw [Option.mem_def.mp h] at hn
  simpa using hn

end Runs

namespace Numeral

/-- The numeral is the whole numeric run at the start of a text: its digits, then, if there is a
point, that and the digits behind it. -/
def Leads (n : Numeral) (text : List Char) : Prop :=
  (∀ c ∈ n.whole ++ n.fraction.getD [], c.isDigit = true) ∧
    ∃ rest, text = n.chars ++ rest ∧
      ∀ c ∈ rest.head?, c.isDigit = false ∧ (n.fraction = none → c ≠ '.')

theorem scan_leads (text : List Char) : (scan text).Leads text := by
  have digits : ∀ c ∈ text.takeWhile Char.isDigit, c.isDigit = true := fun c => of_mem_takeWhile
  have split := List.takeWhile_append_dropWhile (p := Char.isDigit) (l := text)
  unfold scan
  simp only
  split
  · rename_i rest hrest
    refine ⟨?_, rest.dropWhile Char.isDigit, ?_, ?_⟩
    · intro c hc
      rcases List.mem_append.mp hc with h | h
      · exact digits c h
      · exact of_mem_takeWhile h
    · rw [hrest] at split
      simp only [chars, List.append_assoc, List.cons_append, List.takeWhile_append_dropWhile]
      exact split.symm
    · intro c hc
      exact ⟨head?_dropWhile hc, by simp⟩
  · rename_i hpoint
    refine ⟨?_, text.dropWhile Char.isDigit, split.symm, ?_⟩
    · simpa using digits
    · intro c hc
      refine ⟨head?_dropWhile hc, ?_⟩
      rintro - rfl
      obtain ⟨rest, hrest⟩ := List.head?_eq_some_iff.mp hc
      exact hpoint rest hrest

theorem scan_eq_of_leads {n : Numeral} {text : List Char} (h : n.Leads text) : scan text = n := by
  obtain ⟨whole, fraction⟩ := n
  obtain ⟨digits, rest, rfl, stops⟩ := h
  cases fraction with
  | none =>
    simp only [Option.getD_none, List.append_nil] at digits
    have hdigit : ∀ c ∈ rest.head?, c.isDigit = false := fun c hc => (stops c hc).1
    simp only [scan, chars, takeWhile_run digits hdigit, dropWhile_run digits hdigit]
    split
    · exact absurd rfl ((stops '.' rfl).2 rfl)
    · rfl
  | some fraction =>
    simp only [Option.getD_some, List.mem_append] at digits
    have hwhole : ∀ c ∈ whole, c.isDigit = true := fun c hc => digits c (.inl hc)
    have hfraction : ∀ c ∈ fraction, c.isDigit = true := fun c hc => digits c (.inr hc)
    have hpoint : ∀ c ∈ ('.' :: (fraction ++ rest)).head?, c.isDigit = false := by
      rintro c hc
      obtain rfl : '.' = c := by simpa using hc
      decide
    have hdigit : ∀ c ∈ rest.head?, c.isDigit = false := fun c hc => (stops c hc).1
    simp only [scan, chars, List.append_assoc, List.cons_append, takeWhile_run hwhole hpoint,
      dropWhile_run hwhole hpoint, takeWhile_run hfraction hdigit]

end Numeral

section Characters

private theorem toNat_of_opens {c : Char} (h : opensWord c = true) :
    65 ≤ c.toNat ∧ c.toNat ≤ 90 ∨ 97 ≤ c.toNat ∧ c.toNat ≤ 122 ∨ c.toNat = 95 := by
  have hc : (decide (c.val ≥ 'A'.val ∧ c.val ≤ 'Z'.val) ||
      (decide (c.val ≥ 'a'.val) && decide (c.val ≤ 'z'.val)) || decide (c = '_')) = true := h
  simp only [Bool.or_eq_true, Bool.and_eq_true, decide_eq_true_eq, UInt32.le_iff_toNat_le,
    ge_iff_le, Char.ext_iff, ← UInt32.toNat_inj] at hc
  simp only [Char.toNat_val, Char.reduceVal, UInt32.reduceToNat] at hc
  omega

private theorem not_isDigit_of_opens {c : Char} (h : opensWord c = true) : c.isDigit = false := by
  have hc := toNat_of_opens h
  cases hd : c.isDigit with
  | false => rfl
  | true =>
    have hdigit := Char.isDigit_iff_toNat.mp hd
    simp only [Char.reduceToNat] at hdigit
    omega

private theorem continuesWord_of_opensWord {c : Char} (h : opensWord c = true) :
    continuesWord c = true := by
  simp only [opensWord, continuesWord, Char.isAlphanum, Bool.or_eq_true] at h ⊢
  rcases h with h | h
  · exact .inl (.inl h)
  · exact .inr h

private theorem visible_of_opens {c : Char} (h : opensWord c = true) :
    33 ≤ c.toNat ∧ c.toNat ≤ 122 := by
  have hc := toNat_of_opens h
  omega

theorem visible_of_digit {c : Char} (h : c.isDigit = true) : 33 ≤ c.toNat ∧ c.toNat ≤ 122 := by
  have hc := Char.isDigit_iff_toNat.mp h
  simp only [Char.reduceToNat] at hc
  omega

private theorem visible_of_continues {c : Char} (h : continuesWord c = true) :
    33 ≤ c.toNat ∧ c.toNat ≤ 122 := by
  simp only [continuesWord, Char.isAlphanum, Bool.or_eq_true, decide_eq_true_eq] at h
  rcases h with (h | h) | rfl
  · exact visible_of_opens (by simp [opensWord, h])
  · exact visible_of_digit h
  · decide

theorem visible_of_grows {kind : TokenKind} {c : Char} (h : kind.grows c = true) :
    33 ≤ c.toNat ∧ c.toNat ≤ 122 := by
  cases kind with
  | integer n =>
    simp only [TokenKind.grows, Bool.or_eq_true, decide_eq_true_eq] at h
    rcases h with h | rfl
    · exact visible_of_digit h
    · decide
  | real x => exact visible_of_digit h
  | identifier name => exact visible_of_continues h
  | reserved w => exact visible_of_continues h
  | mark m => cases h
  | endOfInput => cases h

end Characters

private theorem isWord_of_reserved (w : Reserved) : IsWord w.text.toList := by
  cases w <;> decide

/-- A word is no symbol and no number, since none of those begins like a word. -/
private theorem IsWord.head {w : List Char} (h : IsWord w) :
    ∃ c cs, w = c :: cs ∧ opensWord c = true := by
  cases w with
  | nil => exact h.elim
  | cons c cs => exact ⟨c, cs, rfl, h.1⟩

private theorem IsWord.continues {w : List Char} (h : IsWord w) :
    ∀ c ∈ w, continuesWord c = true := by
  cases w with
  | nil => exact h.elim
  | cons c cs =>
    intro d hd
    rcases List.mem_cons.mp hd with rfl | hd
    · exact continuesWord_of_opensWord h.1
    · exact List.all_eq_true.mp h.2 d hd

namespace Spells

theorem visible {lexeme : List Char} {kind : TokenKind} (h : Spells lexeme kind) :
    ∃ c cs, lexeme = c :: cs ∧ 33 ≤ c.toNat ∧ c.toNat ≤ 122 := by
  cases h with
  | mark m => cases m <;> exact ⟨_, _, rfl, by decide, by decide⟩
  | reserved w =>
    obtain ⟨c, cs, hw, hc⟩ := (isWord_of_reserved w).head
    exact ⟨c, cs, hw, visible_of_opens hc⟩
  | identifier word =>
    obtain ⟨c, cs, hw, hc⟩ := word.head
    exact ⟨c, cs, hw, visible_of_opens hc⟩
  | integer some_digit all_digits =>
    obtain ⟨c, cs, rfl⟩ := List.exists_cons_of_ne_nil some_digit
    exact ⟨c, cs, rfl, visible_of_digit (all_digits c (by simp))⟩
  | @real whole fraction some_digit all_digits =>
    cases whole with
    | nil => exact ⟨'.', fraction, rfl, by decide, by decide⟩
    | cons c cs => exact ⟨c, cs ++ '.' :: fraction, rfl, visible_of_digit (all_digits c (by simp))⟩

theorem ne_nil {lexeme : List Char} {kind : TokenKind} (h : Spells lexeme kind) : lexeme ≠ [] := by
  obtain ⟨c, cs, rfl, -⟩ := h.visible
  simp

theorem kind_ne_endOfInput {lexeme : List Char} {kind : TokenKind} (h : Spells lexeme kind) :
    kind ≠ .endOfInput := by
  cases h <;> simp

private theorem isWord_iff {lexeme : List Char} {kind : TokenKind} (h : Spells lexeme kind) :
    IsWord lexeme ↔ (∃ w, kind = .reserved w) ∨ ∃ name, kind = .identifier name := by
  cases h with
  | mark m => cases m <;> simp [Mark.chars, IsWord] <;> decide
  | reserved w => simp [isWord_of_reserved w]
  | identifier word => simp [word]
  | integer some_digit all_digits =>
    obtain ⟨c, cs, rfl⟩ := List.exists_cons_of_ne_nil some_digit
    simp only [IsWord, reduceCtorEq, exists_false, or_false, iff_false, not_and]
    intro hc
    have := not_isDigit_of_opens hc
    simp [all_digits c (by simp)] at this
  | @real whole fraction some_digit all_digits =>
    simp only [reduceCtorEq, exists_false, or_false, iff_false]
    intro hw
    cases whole with
    | nil => exact absurd hw.1 (by decide)
    | cons c cs =>
      have := not_isDigit_of_opens hw.1
      simp [all_digits c (by simp)] at this

private theorem isMark_iff {lexeme : List Char} {kind : TokenKind} (h : Spells lexeme kind) :
    (∀ c ∈ lexeme, continuesWord c = false) ↔ ∃ m, kind = .mark m := by
  have opened {w : List Char} (hw : IsWord w) : ¬ ∀ c ∈ w, continuesWord c = false := by
    obtain ⟨c, cs, rfl, hc⟩ := hw.head
    intro none
    have := none c (by simp)
    simp [continuesWord_of_opensWord hc] at this
  have numbered {l : List Char} {c : Char} (hc : c ∈ l) (hd : c.isDigit = true) :
      ¬ ∀ c ∈ l, continuesWord c = false := by
    intro none
    have := none c hc
    simp [continuesWord, Char.isAlphanum, hd] at this
  cases h with
  | mark m => cases m <;> simp [Mark.chars] <;> decide
  | reserved w => simpa using opened (isWord_of_reserved w)
  | identifier word => simpa using opened word
  | integer some_digit all_digits =>
    obtain ⟨c, hc⟩ := List.exists_mem_of_ne_nil _ some_digit
    simpa using numbered hc (all_digits c hc)
  | @real whole fraction some_digit all_digits =>
    obtain ⟨c, hc⟩ := List.exists_mem_of_ne_nil _ some_digit
    have hl : c ∈ whole ++ '.' :: fraction := by
      rcases List.mem_append.mp hc with h | h
      · exact List.mem_append_left _ h
      · exact List.mem_append_right _ (List.mem_cons_of_mem _ h)
    simpa using numbered hl (all_digits c hc)

private theorem isReal_iff {lexeme : List Char} {kind : TokenKind} (h : Spells lexeme kind) :
    ('.' ∈ lexeme ∧ ∃ c ∈ lexeme, c.isDigit = true) ↔ ∃ x, kind = .real x := by
  have pointless {w : List Char} (hw : IsWord w) : '.' ∉ w := by
    intro hp
    exact absurd (hw.continues '.' hp) (by decide)
  cases h with
  | mark m => cases m <;> simp [Mark.chars]
  | reserved w => simp [pointless (isWord_of_reserved w)]
  | identifier word => simp [pointless word]
  | integer some_digit all_digits =>
    have : '.' ∉ _ := fun hp => absurd (all_digits '.' hp) (by decide)
    simp [this]
  | @real whole fraction some_digit all_digits =>
    obtain ⟨c, hc⟩ := List.exists_mem_of_ne_nil _ some_digit
    have hl : c ∈ whole ++ '.' :: fraction := by
      rcases List.mem_append.mp hc with h | h
      · exact List.mem_append_left _ h
      · exact List.mem_append_right _ (List.mem_cons_of_mem _ h)
    simp only [TokenKind.real.injEq, exists_eq', iff_true]
    exact ⟨by simp, c, hl, all_digits c hc⟩

private theorem kind_eq_of_eq {lexeme lexeme' : List Char} {kind kind' : TokenKind}
    (h : Spells lexeme kind) (h' : Spells lexeme' kind') (e : lexeme = lexeme') : kind = kind' := by
  have hword := h.isWord_iff
  have hmark := h.isMark_iff
  have hreal := h.isReal_iff
  rw [e, h'.isWord_iff] at hword
  rw [e, h'.isMark_iff] at hmark
  rw [e, h'.isReal_iff] at hreal
  cases h <;> cases h' <;> simp at hword hmark hreal
  case mark.mark m m' =>
    cases m <;> cases m' <;> first | rfl | exact absurd e (by decide)
  case reserved.reserved w w' =>
    cases w <;> cases w' <;> first | rfl | exact absurd e (by decide)
  case reserved.identifier w word free => exact absurd e (free w)
  case identifier.reserved word free w => exact absurd e.symm (free w)
  case identifier.identifier => rw [e]
  case integer.integer m _ _ value n _ _ value' =>
    rw [e] at value
    rw [Int64.toInt_inj.mp (value.trans value'.symm)]
  case real.real whole fraction _ digits _ whole' fraction' _ digits' _ =>
    have lead : (⟨whole, some fraction⟩ : Numeral).Leads (whole ++ '.' :: fraction) :=
      ⟨digits, [], by simp [Numeral.chars], by simp⟩
    have lead' : (⟨whole', some fraction'⟩ : Numeral).Leads (whole' ++ '.' :: fraction') :=
      ⟨digits', [], by simp [Numeral.chars], by simp⟩
    have same := (Numeral.scan_eq_of_leads lead).symm.trans
      ((congrArg Numeral.scan e).trans (Numeral.scan_eq_of_leads lead'))
    simp only [Numeral.mk.injEq, Option.some.injEq] at same
    rw [same.1, same.2]

theorem kind_eq {lexeme : List Char} {kind kind' : TokenKind} (h : Spells lexeme kind)
    (h' : Spells lexeme kind') : kind = kind' := kind_eq_of_eq h h' rfl

private theorem kindOfWord {w : List Char} (word : IsWord w) :
    Spells w (Recogniser.kindOfWord (String.ofList w)) := by
  unfold Recogniser.kindOfWord Reserved.ofText?
  split
  · rename_i r hr
    have ht : r.text = String.ofList w := by simpa using List.find?_some hr
    rw [← String.toList_ofList (l := w), ← ht]
    exact .reserved r
  · rename_i hnone
    refine .identifier word ?_
    rintro r rfl
    have := List.find?_eq_none.mp hnone r (Reserved.mem_all r)
    simp at this

end Spells

section Recognisers

variable {text lexeme : List Char} {kind : TokenKind}

private theorem offers_of_mark {m : Mark} {n : Match text} (h : Recogniser.mark m text = some n) :
    Offers text (text.take n.length) n.kind := by
  unfold Recogniser.mark at h
  split at h
  · rename_i hpre
    cases h
    obtain ⟨rest, rfl⟩ := hpre
    rw [List.take_left]
    exact ⟨.mark m, rest, rfl, fun c _ => rfl⟩
  · cases h

private theorem offers_of_word {n : Match text} (h : Recogniser.word text = some n) :
    Offers text (text.take n.length) n.kind := by
  unfold Recogniser.word at h
  split at h
  · cases h
  · rename_i c rest
    split at h
    · rename_i hc
      cases h
      have split := List.takeWhile_append_dropWhile (p := continuesWord) (l := rest)
      have word : IsWord (c :: rest.takeWhile continuesWord) :=
        ⟨hc, List.all_eq_true.mpr fun d hd => of_mem_takeWhile hd⟩
      have whole :
          c :: rest = (c :: rest.takeWhile continuesWord) ++ rest.dropWhile continuesWord :=
        congrArg (c :: ·) split.symm
      have take := List.prefix_iff_eq_take.mp ⟨_, whole.symm⟩
      simp only [← take]
      refine ⟨.kindOfWord word, rest.dropWhile continuesWord, whole, ?_⟩
      intro d hd
      have hcont := head?_dropWhile hd
      unfold Recogniser.kindOfWord
      split <;> exact hcont
    · cases h

private theorem offers_of_leads {n : Numeral} (h : n.Leads text) (some_digit : n.hasDigit = true)
    (hkind : n.kind? = some kind) : Offers text n.chars kind := by
  obtain ⟨whole, fraction⟩ := n
  obtain ⟨digits, rest, hrest, stops⟩ := h
  cases fraction with
  | none =>
    simp only [Numeral.kind?, Option.map_eq_some_iff] at hkind
    obtain ⟨w, hw, rfl⟩ := hkind
    refine ⟨.integer ?_ ?_ (Integer.ofInt?_eq_some_iff.mp hw), rest, hrest, ?_⟩
    · simpa [Numeral.hasDigit, Numeral.chars] using some_digit
    · simpa [Numeral.chars] using digits
    · intro c hc
      simpa [TokenKind.grows] using stops c hc
  | some fraction =>
    simp only [Numeral.kind?, Option.ite_none_right_eq_some, Option.some.injEq] at hkind
    obtain ⟨finite, rfl⟩ := hkind
    refine ⟨.real ?_ digits finite, rest, hrest, fun c hc => (stops c hc).1⟩
    intro empty
    obtain ⟨rfl, rfl⟩ := List.append_eq_nil_iff.mp empty
    simp [Numeral.hasDigit] at some_digit

private theorem offers_of_number {n : Match text} (h : Recogniser.number text = some n) :
    Offers text (text.take n.length) n.kind := by
  unfold Recogniser.number at h
  simp only at h
  split at h
  · rename_i some_digit
    obtain ⟨kind, hkind, rfl⟩ := Option.map_eq_some_iff.mp h
    obtain ⟨rest, hrest⟩ := Numeral.chars_append text
    have take := List.prefix_iff_eq_take.mp ⟨rest, hrest⟩
    simp only [← take]
    exact offers_of_leads (Numeral.scan_leads text) some_digit hkind
  · cases h

private theorem exists_numeral_of_offers (h : Offers text lexeme kind)
    (numeric : kind.Numeric) :
    ∃ n : Numeral, n.Leads text ∧ n.hasDigit = true ∧ n.kind? = some kind ∧ n.chars = lexeme := by
  obtain ⟨spells, rest, rfl, stops⟩ := h
  cases spells with
  | integer some_digit all_digits value =>
    refine ⟨⟨lexeme, none⟩, ⟨by simpa using all_digits, rest, rfl, ?_⟩, ?_, ?_, rfl⟩
    · intro c hc
      simpa [TokenKind.grows] using stops c hc
    · simpa [Numeral.hasDigit] using some_digit
    · simp only [Numeral.kind?, Option.map_eq_some_iff]
      exact ⟨_, Integer.ofInt?_eq_some_iff.mpr value, rfl⟩
  | @real whole fraction some_digit all_digits finite =>
    refine ⟨⟨whole, some fraction⟩, ⟨all_digits, rest, rfl, fun c hc => ⟨stops c hc, by simp⟩⟩,
      ?_, by simp [Numeral.kind?, finite], rfl⟩
    cases whole <;> cases fraction <;> simp_all [Numeral.hasDigit]
  | mark m => exact numeric.elim
  | reserved w => exact numeric.elim
  | identifier word => exact numeric.elim

theorem offers_of_recogniser {r : Recogniser} (hr : r ∈ Recogniser.all) {n : Match text}
    (h : r text = some n) : Offers text (text.take n.length) n.kind := by
  simp only [Recogniser.all, List.mem_append, List.mem_map, List.mem_cons, List.not_mem_nil,
    or_false] at hr
  rcases hr with ⟨m, -, rfl⟩ | rfl | rfl
  · exact offers_of_mark h
  · exact offers_of_word h
  · exact offers_of_number h

private theorem recogniser_of_word {w rest : List Char} (word : IsWord w)
    (stops : ∀ c ∈ rest.head?, continuesWord c = false) :
    ∃ n, Recogniser.word (w ++ rest) = some n ∧
      n.kind = Recogniser.kindOfWord (String.ofList w) ∧ n.length = w.length := by
  cases w with
  | nil => exact word.elim
  | cons c cs =>
    have run := takeWhile_run (List.all_eq_true.mp word.2) stops
    simp only [List.cons_append, Recogniser.word, word.1, if_true, run]
    exact ⟨_, rfl, rfl, rfl⟩

private theorem exists_recogniser_of_offers (h : Offers text lexeme kind) :
    ∃ r ∈ Recogniser.all, ∃ n, r text = some n ∧ n.kind = kind ∧ n.length = lexeme.length := by
  have words : Recogniser.word ∈ Recogniser.all := by simp [Recogniser.all]
  have numbers : Recogniser.number ∈ Recogniser.all := by simp [Recogniser.all]
  have hnumber (numeric : kind.Numeric) :
      ∃ n, Recogniser.number text = some n ∧ n.kind = kind ∧ n.length = lexeme.length := by
    obtain ⟨n, leads, some_digit, hkind, rfl⟩ := exists_numeral_of_offers h numeric
    obtain rfl := Numeral.scan_eq_of_leads leads
    simp [Recogniser.number, some_digit, hkind]
  obtain ⟨spells, rest, rfl, stops⟩ := h
  have hword (word : IsWord lexeme) (hstop : ∀ c ∈ rest.head?, continuesWord c = false) :
      ∃ n, Recogniser.word (lexeme ++ rest) = some n ∧ n.kind = kind ∧
        n.length = lexeme.length := by
    obtain ⟨n, hn, hkind, hlength⟩ := recogniser_of_word word hstop
    exact ⟨n, hn, hkind.trans (Spells.kind_eq (.kindOfWord word) spells), hlength⟩
  cases spells with
  | mark m =>
    refine ⟨.mark m, by simp [Recogniser.all, Mark.mem_all], ?_⟩
    simp [Recogniser.mark]
  | reserved w => exact ⟨_, words, hword (isWord_of_reserved w) stops⟩
  | identifier word => exact ⟨_, words, hword word stops⟩
  | integer => exact ⟨_, numbers, hnumber trivial⟩
  | real => exact ⟨_, numbers, hnumber trivial⟩

private theorem exists_of_longest {rs : List Recogniser} {m : Match text}
    (h : Recogniser.longest text rs = some m) : ∃ r ∈ rs, r text = some m := by
  induction rs generalizing m with
  | nil => simp [Recogniser.longest] at h
  | cons r rs ih =>
    simp only [Recogniser.longest] at h
    split at h
    · rename_i m' n hr hrs
      split at h
      · cases h
        obtain ⟨r', hr', h'⟩ := ih hrs
        exact ⟨r', List.mem_cons_of_mem _ hr', h'⟩
      · cases h
        exact ⟨r, List.mem_cons_self, hr⟩
    · rename_i m' hr hrs
      cases h
      exact ⟨r, List.mem_cons_self, hr⟩
    · rename_i hr
      obtain ⟨r', hr', h'⟩ := ih h
      exact ⟨r', List.mem_cons_of_mem _ hr', h'⟩

private theorem le_longest {rs : List Recogniser} {r : Recogniser} {n : Match text} (hr : r ∈ rs)
    (h : r text = some n) : ∃ m, Recogniser.longest text rs = some m ∧ n.length ≤ m.length := by
  induction rs with
  | nil => simp at hr
  | cons q rs ih =>
    simp only [Recogniser.longest]
    rcases List.mem_cons.mp hr with rfl | hr
    · rw [h]
      cases Recogniser.longest text rs with
      | none => exact ⟨n, rfl, Nat.le_refl _⟩
      | some m =>
        by_cases hlt : n.length < m.length
        · exact ⟨m, by simp [hlt], by omega⟩
        · exact ⟨n, by simp [hlt], Nat.le_refl _⟩
    · obtain ⟨m, hm, hle⟩ := ih hr
      rw [hm]
      cases q text with
      | none => exact ⟨m, rfl, hle⟩
      | some m' =>
        by_cases hlt : m'.length < m.length
        · exact ⟨m, by simp [hlt], hle⟩
        · exact ⟨m', by simp [hlt], by omega⟩

private theorem longest_of_longestOffer (h : LongestOffer text lexeme kind) :
    ∃ m, Recogniser.longest text Recogniser.all = some m ∧ m.kind = kind ∧
      m.length = lexeme.length := by
  obtain ⟨offer, greatest⟩ := h
  obtain ⟨r, hr, n, hn, hkind, hlength⟩ := exists_recogniser_of_offers offer
  obtain ⟨m, hm, hle⟩ := le_longest hr hn
  obtain ⟨q, hq, hqm⟩ := exists_of_longest hm
  have offer' := offers_of_recogniser hq hqm
  have hge := greatest _ _ offer'
  have hfits := m.length_le
  rw [List.length_take] at hge
  have hlen : m.length = lexeme.length := by omega
  refine ⟨m, hm, ?_, hlen⟩
  -- Two lexemes of one length at one place are the same lexeme.
  obtain ⟨spells, rest, rfl, -⟩ := offer
  rw [hlen, List.take_left] at offer'
  exact Spells.kind_eq offer'.1 spells

theorem longest_eq_some_iff {m : Match text} :
    Recogniser.longest text Recogniser.all = some m ↔
      LongestOffer text (text.take m.length) m.kind := by
  constructor
  · intro h
    obtain ⟨r, hr, hm⟩ := exists_of_longest h
    refine ⟨offers_of_recogniser hr hm, ?_⟩
    intro lexeme' kind' offer'
    obtain ⟨r', hr', n, hn, -, hlength⟩ := exists_recogniser_of_offers offer'
    obtain ⟨m', hm', hle⟩ := le_longest hr' hn
    obtain rfl : m = m' := Option.some.inj (h.symm.trans hm')
    rw [List.length_take, ← hlength]
    have := m.length_le
    omega
  · intro h
    obtain ⟨m', hm', hkind, hlength⟩ := longest_of_longestOffer h
    rw [List.length_take_of_le m.length_le] at hlength
    rw [hm']
    obtain ⟨k, l, _, _⟩ := m
    obtain ⟨k', l', _, _⟩ := m'
    obtain rfl : k' = k := hkind
    obtain rfl : l' = l := hlength
    rfl

theorem longest_eq_none_iff :
    Recogniser.longest text Recogniser.all = none ↔ ∀ lexeme kind, ¬ Offers text lexeme kind := by
  constructor
  · intro h lexeme kind offer
    obtain ⟨r, hr, n, hn, -⟩ := exists_recogniser_of_offers offer
    obtain ⟨m, hm, -⟩ := le_longest hr hn
    rw [h] at hm
    cases hm
  · intro h
    cases hm : Recogniser.longest text Recogniser.all with
    | none => rfl
    | some m => exact absurd (longest_eq_some_iff.mp hm).1 (h _ _)

theorem exists_longestOffer (h : ∃ lexeme kind, Offers text lexeme kind) :
    ∃ lexeme kind, LongestOffer text lexeme kind := by
  cases hm : Recogniser.longest text Recogniser.all with
  | none =>
    obtain ⟨lexeme, kind, offer⟩ := h
    exact absurd offer (longest_eq_none_iff.mp hm lexeme kind)
  | some m => exact ⟨_, _, longest_eq_some_iff.mp hm⟩

private theorem Spells.classes (h : Spells lexeme kind) :
    IsWord lexeme ∨ kind.Numeric ∨ ∃ m : Mark, lexeme = m.chars ∧ kind = .mark m := by
  cases h with
  | mark m => exact .inr (.inr ⟨m, rfl, rfl⟩)
  | reserved w => exact .inl (isWord_of_reserved w)
  | identifier word => exact .inl word
  | integer => exact .inr (.inl trivial)
  | real => exact .inr (.inl trivial)

private theorem Spells.numeric_head (h : Spells lexeme kind)
    (numeric : kind.Numeric) :
    ∃ c cs, lexeme = c :: cs ∧
      (c.isDigit = true ∨ c = '.' ∧ ∃ d ds, cs = d :: ds ∧ d.isDigit = true) := by
  cases h with
  | integer some_digit all_digits =>
    obtain ⟨c, cs, rfl⟩ := List.exists_cons_of_ne_nil some_digit
    exact ⟨c, cs, rfl, .inl (all_digits c List.mem_cons_self)⟩
  | @real whole fraction some_digit all_digits =>
    cases whole with
    | nil =>
      obtain ⟨d, ds, rfl⟩ := List.exists_cons_of_ne_nil some_digit
      exact ⟨'.', d :: ds, rfl, .inr ⟨rfl, d, ds, rfl, all_digits d List.mem_cons_self⟩⟩
    | cons c cs => exact ⟨c, cs ++ '.' :: fraction, rfl, .inl (all_digits c List.mem_cons_self)⟩
  | mark m => exact numeric.elim
  | reserved w => exact numeric.elim
  | identifier word => exact numeric.elim

private theorem exists_word_match (h : Offers text lexeme kind) (word : IsWord lexeme) :
    ∃ n, Recogniser.word text = some n ∧ n.length = lexeme.length := by
  obtain ⟨spells, rest, rfl, stops⟩ := h
  have hstop : ∀ c ∈ rest.head?, continuesWord c = false := by
    intro c hc
    have hgrows := stops c hc
    rcases spells.isWord_iff.mp word with ⟨w, rfl⟩ | ⟨name, rfl⟩ <;> exact hgrows
  obtain ⟨n, hn, -, hlength⟩ := recogniser_of_word word hstop
  exact ⟨n, hn, hlength⟩

private theorem word_or_number_length (h : Offers text lexeme kind)
    {lexeme' : List Char} {kind' : TokenKind} (h' : Offers text lexeme' kind') :
    (IsWord lexeme → IsWord lexeme' → lexeme'.length = lexeme.length) ∧
      (kind.Numeric → kind'.Numeric → lexeme'.length = lexeme.length) := by
  constructor
  · intro word word'
    obtain ⟨n, hn, hlength⟩ := exists_word_match h word
    obtain ⟨n', hn', hlength'⟩ := exists_word_match h' word'
    obtain rfl : n = n' := Option.some.inj (hn.symm.trans hn')
    rw [← hlength, ← hlength']
  · intro numeric numeric'
    obtain ⟨n, leads, -, -, rfl⟩ := exists_numeral_of_offers h numeric
    obtain ⟨n', leads', -, -, rfl⟩ := exists_numeral_of_offers h' numeric'
    rw [← Numeral.scan_eq_of_leads leads, ← Numeral.scan_eq_of_leads leads']

/-- What is offered is the longest offer, but for a point in front of a digit and a colon in front
of an equals sign. -/
theorem longestOffer_of_offers {rest : List Char} (h : Offers (lexeme ++ rest) lexeme kind)
    (hdot : kind = .mark .dot → ∀ c ∈ rest.head?, c.isDigit = false)
    (hcolon : kind = .mark .colon → ∀ c ∈ rest.head?, c ≠ '=') :
    LongestOffer (lexeme ++ rest) lexeme kind := by
  refine ⟨h, ?_⟩
  intro lexeme' kind' h'
  obtain ⟨hwords, hnumbers⟩ := word_or_number_length h h'
  obtain ⟨rest', htext⟩ : ∃ rest', lexeme ++ rest = lexeme' ++ rest' := by
    obtain ⟨-, rest', htext, -⟩ := h'
    exact ⟨rest', htext⟩
  rcases h.1.classes with word | numeric | ⟨m, rfl, rfl⟩
  · obtain ⟨c, cs, rfl, hc⟩ := word.head
    rcases h'.1.classes with word' | numeric' | ⟨m', rfl, rfl⟩
    · exact Nat.le_of_eq (hwords word word')
    · obtain ⟨d, ds, rfl, hd⟩ := h'.1.numeric_head numeric'
      obtain rfl : c = d := (List.cons.inj htext).1
      rcases hd with hd | ⟨rfl, -⟩
      · exact absurd hd (by simp [not_isDigit_of_opens hc])
      · exact absurd hc (by decide)
    · cases m' <;> obtain ⟨rfl, -⟩ := List.cons.inj htext <;> exact absurd hc (by decide)
  · obtain ⟨c, cs, rfl, hc⟩ := h.1.numeric_head numeric
    rcases h'.1.classes with word' | numeric' | ⟨m', rfl, rfl⟩
    · obtain ⟨d, ds, rfl, hd⟩ := word'.head
      obtain rfl : c = d := (List.cons.inj htext).1
      rcases hc with hc | ⟨rfl, -⟩
      · exact absurd hc (by simp [not_isDigit_of_opens hd])
      · exact absurd hd (by decide)
    · exact Nat.le_of_eq (hnumbers numeric numeric')
    · have hcolon' : c ≠ ':' := by
        rintro rfl
        rcases hc with hc | ⟨hc, -⟩ <;> exact absurd hc (by decide)
      cases m' <;> first
        | exact Nat.succ_le_succ (Nat.zero_le _)
        | exact absurd (List.cons.inj htext).1 hcolon'
  · rcases h'.1.classes with word' | numeric' | ⟨m', rfl, rfl⟩
    · obtain ⟨d, ds, rfl, hd⟩ := word'.head
      cases m <;> obtain ⟨rfl, -⟩ := List.cons.inj htext <;> exact absurd hd (by decide)
    · obtain ⟨d, ds, rfl, hd⟩ := h'.1.numeric_head numeric'
      rcases hd with hd | ⟨rfl, e, es, rfl, he⟩
      · cases m <;> obtain ⟨rfl, -⟩ := List.cons.inj htext <;> exact absurd hd (by decide)
      · have hm : m = .dot := by
          cases m <;> first | rfl | exact absurd (List.cons.inj htext).1 (by decide)
        subst hm
        obtain rfl : rest = e :: (es ++ rest') := (List.cons.inj htext).2
        exact absurd he (by simp [hdot rfl e rfl])
    · by_cases hassign : m' = .assign
      · subst hassign
        cases m with
        | colon =>
          obtain rfl : rest = '=' :: rest' := (List.cons.inj htext).2
          exact absurd rfl (hcolon rfl '=' rfl)
        | assign => exact Nat.le_refl _
        | _ => exact absurd (List.cons.inj htext).1 (by decide)
      · have hone : m'.chars.length = 1 := by
          cases m' <;> first | rfl | exact absurd rfl hassign
        rw [hone]
        exact m.chars_length_pos

end Recognisers

end MiniPascal
