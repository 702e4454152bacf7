import MiniPascal.Proofs.Printing.Lexed
import MiniPascal.Proofs.Run.Finite

/-!
The text of a value as an expression. It is a number, with a sign in front of it if the value is
negative; the sign is read as an operator, and the number must be in range without it. The least
integer has no counterpart without a sign, and `Value.text_evaluates_back` says that every other
integer and every finite real comes back from its text.
-/

set_option autoImplicit false
set_option relaxedAutoImplicit false

namespace MiniPascal

namespace Integer

variable {n : Int64}

private theorem toInt_neg_of_ne (h : n ≠ Int64.minValue) : (-n).toInt = -n.toInt := by
  have hlow := n.minValue_le_toInt
  have hhigh := n.toInt_le
  have hne : n.toInt ≠ Int64.minValue.toInt := fun heq => h (Int64.toInt_inj.mp heq)
  rw [Int64.toInt_minValue] at hlow hne
  rw [Int64.toInt_maxValue] at hhigh
  rw [Int64.toInt_neg, Int.bmod_def]
  omega

private theorem write_neg (negative : n.toInt < 0) (h : n ≠ Int64.minValue) :
    write n = '-' :: write (-n) := by
  have hpositive : ¬ (-n).toInt < 0 := by
    rw [toInt_neg_of_ne h]
    omega
  rw [write, write, if_pos negative, if_neg hpositive, toInt_neg_of_ne h, Int.natAbs_neg]
  rfl

end Integer

namespace Value

def derivation : Value → Derivation .factor
  | .integer n => if n.toInt < 0 then .signed .minus (.integer (-n)) else .integer n
  | .real x => (Expr.real x).derivation

variable {v : Value}

private theorem within_derivation (v : Value) : v.derivation.Within 3 := by
  have hlimit : 4 ≤ Rule.limit := by decide
  have hlimit' : 3 ≤ Rule.limit := by decide
  cases v with
  | integer n =>
    rw [derivation]
    split
    · simpa using ⟨hlimit', hlimit⟩
    · simpa using hlimit'
  | real x =>
    rw [derivation, Expr.derivation]
    split
    · simpa using ⟨hlimit', hlimit⟩
    · simpa using hlimit'

private theorem lexes_write (finite : v.Finite) (h : v ≠ .integer Int64.minValue) :
    Lexes v.write v.derivation.yield [] := by
  have parted : Parted [] := nofun
  cases v with
  | integer n =>
    rw [write, derivation]
    have hn : n ≠ Int64.minValue := fun heq => h (heq ▸ rfl)
    by_cases negative : n.toInt < 0
    · have hpositive : 0 ≤ (-n).toInt := by
        rw [Integer.toInt_neg_of_ne hn]
        omega
      have hnumber := lexes_integer hpositive parted
      rw [List.append_nil] at hnumber
      rw [if_pos negative, Derivation.yield, Derivation.yield, Integer.write_neg negative hn]
      exact (lexes_sign .minus _).cons hnumber
    · have hnumber := lexes_integer (Int.not_lt.mp negative) parted
      rw [List.append_nil] at hnumber
      rw [if_neg negative, Derivation.yield]
      exact hnumber
  | real x =>
    have hnumber := Expr.lexes_write (e := .real x) finite parted
    rw [Expr.write, List.append_nil] at hnumber
    exact hnumber

/-- The sign is carried out again, on an integer that has a counterpart without it or on a real. -/
private theorem eval_tree (h : v ≠ .integer Int64.minValue) (store : Store) :
    v.derivation.tree.eval store = .ok v := by
  cases v with
  | integer n =>
    rw [derivation]
    have hn : n ≠ Int64.minValue := fun heq => h (heq ▸ rfl)
    split
    · have hfits : Integer.ofInt? (-(-n).toInt) = some n := by
        rw [Integer.ofInt?_eq_some_iff, Integer.toInt_neg_of_ne hn, Int.neg_neg]
      rw [Derivation.tree, Derivation.tree]
      change ofInt UnaryOp.minus.text (-(-n).toInt) = _
      rw [ofInt, hfits, ofWord?]
    · rw [Derivation.tree]
      rfl
  | real x =>
    rw [derivation, Expr.derivation]
    split
    · rw [Derivation.tree, Derivation.tree]
      change Except.ok (real x.negate.negate) = _
      rw [Binary64.negate_negate]
    · rw [Derivation.tree]
      rfl

private theorem ofString_text (finite : v.Finite) (h : v ≠ .integer Int64.minValue) :
    Expr.ofString v.text = .ok v.derivation.tree := by
  refine Expr.ofString_eq_ok_iff.mpr ⟨.ofFactor v.derivation, ?_, Derivation.tree_ofFactor _, ?_⟩
  · exact (Derivation.within_ofFactor _).mpr v.within_derivation
  · apply Derivation.derives_of_lexes
    rw [Derivation.yield_ofFactor]
    exact lexes_write finite h

private theorem ofString_text_least :
    Expr.ofString (integer Int64.minValue).text =
      .error (.lexical (.numberOutOfRange "9223372036854775808" (.point ⟨1, 2⟩))) := by
  decide +kernel

/-- The text of an integer or a finite real is read as an expression that has this value and no
other, whatever is stored, unless the value is the least integer; then the text is refused for the
number in it. -/
theorem text_evaluates_back {v : Value} (finite : v.Finite) :
    ((∃ e, Expr.ofString v.text = .ok e ∧ ∀ store, e.eval store = .ok v) ↔
      v ≠ .integer Int64.minValue) ∧
    (v = .integer Int64.minValue → Expr.ofString v.text =
      .error (.lexical (.numberOutOfRange "9223372036854775808" (.point ⟨1, 2⟩)))) ∧
    ∀ e store w, Expr.ofString v.text = .ok e → e.eval store = .ok w → w = v := by
  refine ⟨⟨?_, ?_⟩, ?_, ?_⟩
  · rintro ⟨e, he, -⟩ rfl
    rw [ofString_text_least] at he
    cases he
  · intro h
    exact ⟨_, ofString_text finite h, eval_tree h⟩
  · rintro rfl
    exact ofString_text_least
  · intro e store w he hw
    by_cases h : v = .integer Int64.minValue
    · rw [h, ofString_text_least] at he
      cases he
    · rw [ofString_text finite h] at he
      cases he
      rw [eval_tree h] at hw
      cases hw
      rfl

/-- Zero comes back with its sign, and the least integer does not come back. -/
theorem negative_zero_and_least_integer :
    let zero : Value := .real ⟨true, 0, by decide⟩
    zero.text = "-0.0" ∧ (∃ e, Expr.ofString zero.text = .ok e ∧ ∀ store, e.eval store = .ok zero) ∧
      (integer Int64.minValue).text = "-9223372036854775808" ∧
      ∀ e, Expr.ofString (integer Int64.minValue).text ≠ .ok e := by
  intro zero
  have hzero := (text_evaluates_back (v := zero) rfl).1.mpr (by simp [zero])
  refine ⟨by decide, hzero, by decide, fun e he => ?_⟩
  rw [(text_evaluates_back (v := integer Int64.minValue) trivial).2.1 rfl] at he
  cases he

end Value

end MiniPascal
