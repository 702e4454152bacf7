import MiniPascal.Number.Rounding

/-!
Decimal fractions and doubles. Reading takes the nearest double; writing takes the fewest digits
that read back. `magnitude_shortest` says that what is written reads back as the number it was
written for.
-/

set_option autoImplicit false
set_option relaxedAutoImplicit false

namespace MiniPascal

structure Decimal where
  digits : Nat
  exponent : Int
  deriving DecidableEq

/-- Of two decimals that lie equally near, writing takes the larger one or the even one. -/
inductive Tie
  | up
  | even
  deriving DecidableEq

namespace Decimal

open Binary64 (finest)

def ofDigits (whole fraction : List Char) : Decimal :=
  ⟨Nat.ofDigitChars 10 (whole ++ fraction) 0, -fraction.length⟩

def magnitude (d : Decimal) : Nat :=
  Binary64.nearest (d.digits * Nat.pow 10 d.exponent.toNat) (Nat.pow 10 (-d.exponent).toNat)

def toBinary64 (d : Decimal) : Binary64 :=
  ⟨false, d.magnitude, Binary64.nearest_lt _ _⟩

/-- All digits of a finite magnitude, as many behind the point as the least unit has. -/
def exact (magnitude : Nat) : Decimal := ⟨Binary64.units magnitude * Nat.pow 5 finest, -finest⟩

/-- Drop the last `n` of the digits `all` of a magnitude. Of the two neighbours on the coarser grid
only one that reads back is taken, and the nearer one comes first. -/
def shortened? (tie : Tie) (magnitude all n : Nat) : Option Decimal :=
  let step := Nat.pow 10 n
  let below : Decimal := ⟨all / step, n - finest⟩
  let above : Decimal := ⟨all / step + 1, n - finest⟩
  let nearer : Decimal :=
    if 2 * (all % step) < step then below
    else if step < 2 * (all % step) then above
    else match tie with
      | .up => above
      | .even => if all / step % 2 = 0 then below else above
  [nearer, below, above].find? fun d => d.magnitude = magnitude

def shorten (tie : Tie) (magnitude all : Nat) : Nat → Decimal
  | 0 => ⟨all, -finest⟩
  | n + 1 => (shortened? tie magnitude all (n + 1)).getD (shorten tie magnitude all n)

/-- A decimal with the fewest digits among those that read back as a finite magnitude, and the
nearest to it among these. A number has at most three digits for every ten binary ones, and a few
more; there the search begins. -/
def shortest (tie : Tie) (magnitude : Nat) : Decimal :=
  let all := (exact magnitude).digits
  shorten tie magnitude all (Nat.log2 all * 302 / 1000 + 1)

/-- The digits up to the last one that is not zero, and how many of them, zeros supplied, stand
before the point. -/
def significant (d : Decimal) : List Char × Int :=
  let digits := Nat.toDigits 10 d.digits
  ((digits.reverse.dropWhile (· = '0')).reverse, digits.length + d.exponent)

private theorem magnitude_exact {m : Nat} (h : m < Binary64.infinity) :
    (exact m).magnitude = m := by
  have hten : Nat.pow 10 finest = Binary64.unitsInOne * Nat.pow 5 finest := by
    unfold Binary64.unitsInOne
    generalize finest = n
    exact Nat.mul_pow 2 5 n
  have hone : Nat.pow 10 (-(finest : Int)).toNat = 1 := by simp
  have hpos (n : Nat) : 0 < Nat.pow 5 n := Nat.pow_pos (by decide)
  unfold magnitude exact
  simp only [Int.neg_neg, Int.toNat_natCast]
  rw [hone, Nat.mul_one, hten, Binary64.nearest_mul_right _ _ _ (hpos finest)]
  exact Binary64.nearest_units h

private theorem magnitude_of_shortened? {tie : Tie} {m all n : Nat} {d : Decimal}
    (h : shortened? tie m all n = some d) : d.magnitude = m := by
  simpa using List.find?_some h

/-- Writing loses nothing. -/
theorem magnitude_shortest (tie : Tie) {m : Nat} (h : m < Binary64.infinity) :
    (shortest tie m).magnitude = m := by
  have key : ∀ n, (shorten tie m (exact m).digits n).magnitude = m := by
    intro n
    induction n with
    | zero => exact magnitude_exact h
    | succ n ih =>
      unfold shorten
      cases hs : shortened? tie m (exact m).digits (n + 1) with
      | none => simpa using ih
      | some d => simpa using magnitude_of_shortened? hs
  exact key _

end Decimal

end MiniPascal
