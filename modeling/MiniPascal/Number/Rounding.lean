import MiniPascal.Number.Binary64

/-!
The double nearest to a quotient of natural numbers, a half going to the even neighbour.
`nearest_units` says that a quotient that is itself a double is left alone.
-/

set_option autoImplicit false
set_option relaxedAutoImplicit false

namespace MiniPascal.Binary64

/-- The integer nearest to a quotient; a half goes to the even one. -/
def divHalfEven (a d : Nat) : Nat :=
  if 2 * (a % d) < d then a / d
  else if d < 2 * (a % d) then a / d + 1
  else a / d + a / d % 2

/-- The magnitude of the double nearest to `num / den`. The quotient is counted in least units; of
that count the leading 53 bits are kept, and the number of bits dropped is the exponent. A carry
out of the leading bits runs into the exponent, as it should; past the largest double lies
infinity. -/
def nearest (num den : Nat) : Nat :=
  let scaled := num * unitsInOne
  let dropped := Nat.log2 (scaled / den) - 52
  min infinity (dropped * Nat.pow 2 52 + divHalfEven scaled (den * Nat.pow 2 dropped))

private theorem nearest_le_infinity (num den : Nat) :
    nearest num den ≤ infinity := Nat.min_le_left ..

theorem nearest_lt (num den : Nat) : nearest num den < Nat.pow 2 63 :=
  Nat.lt_of_le_of_lt (nearest_le_infinity num den) (by decide)

def ofRatio (negative : Bool) (num den : Nat) : Binary64 :=
  ⟨negative, nearest num den, nearest_lt num den⟩

def ofInt (n : Int) : Binary64 := ofRatio (n < 0) n.natAbs 1

private theorem divHalfEven_mul (q d : Nat) (hd : 0 < d) : divHalfEven (q * d) d = q := by
  simp [divHalfEven, Nat.mul_mod_left, Nat.mul_div_cancel _ hd, hd]

private theorem divHalfEven_mul_right (a d k : Nat) (hk : 0 < k) :
    divHalfEven (a * k) (d * k) = divHalfEven a d := by
  have hlt (x y : Nat) : x * k < y * k ↔ x < y := Nat.mul_lt_mul_right hk
  simp only [divHalfEven, Nat.mul_div_mul_right a d hk, Nat.mul_mod_mul_right, ← Nat.mul_assoc, hlt]

theorem nearest_mul_right (num den k : Nat) (hk : 0 < k) :
    nearest (num * k) (den * k) = nearest num den := by
  have hs : num * k * unitsInOne = num * unitsInOne * k := by
    rw [Nat.mul_assoc, Nat.mul_comm k, ← Nat.mul_assoc]
  have hd (p : Nat) : den * k * Nat.pow 2 p = den * Nat.pow 2 p * k := by
    rw [Nat.mul_assoc, Nat.mul_comm k, ← Nat.mul_assoc]
  simp only [nearest, hs, hd, Nat.mul_div_mul_right _ _ hk, divHalfEven_mul_right _ _ _ hk]

private theorem log2_leading {a : Nat} (k : Nat) (h : Nat.pow 2 52 ≤ a) (h' : a < Nat.pow 2 53) :
    Nat.log2 (a * Nat.pow 2 k) = 52 + k := by
  simp only [Nat.pow_eq] at h h' ⊢
  have hk : 0 < 2 ^ k := Nat.two_pow_pos k
  have ha : a * 2 ^ k ≠ 0 := Nat.mul_ne_zero (by omega) (by omega)
  apply Nat.le_antisymm
  · refine Nat.le_of_lt_succ ((Nat.log2_lt ha).2 ?_)
    rw [show (52 + k).succ = 53 + k by omega, Nat.pow_add]
    exact (Nat.mul_lt_mul_right hk).2 h'
  · rw [Nat.le_log2 ha, Nat.pow_add]
    exact Nat.mul_le_mul_right _ h

theorem nearest_units {m : Nat} (h : m < infinity) : nearest (units m) (unitsInOne) = m := by
  have hp := unitsInOne_pos
  unfold nearest
  simp only [Nat.mul_div_cancel _ hp]
  unfold units
  simp only [Nat.pow_eq]
  split
  · rename_i hm
    have hlog : Nat.log2 m - 52 = 0 := by
      by_cases h0 : m = 0
      · subst h0; decide
      · have := (Nat.log2_lt h0).2 hm
        omega
    rw [hlog]
    simp only [Nat.pow_zero, Nat.mul_one, Nat.zero_mul, Nat.zero_add, divHalfEven_mul _ _ hp]
    exact Nat.min_eq_right (Nat.le_of_lt h)
  · rename_i hm
    have hlead := @log2_leading (2 ^ 52 + m % 2 ^ 52) (m / 2 ^ 52 - 1)
    simp only [Nat.pow_eq] at hlead
    rw [hlead (by omega) (by omega)]
    have hdrop : 52 + (m / 2 ^ 52 - 1) - 52 = m / 2 ^ 52 - 1 := by omega
    rw [hdrop, Nat.mul_assoc, Nat.mul_comm (2 ^ (m / 2 ^ 52 - 1)),
      divHalfEven_mul _ _ (Nat.mul_pos hp (Nat.two_pow_pos _))]
    have hm' : (m / 2 ^ 52 - 1) * 2 ^ 52 + (2 ^ 52 + m % 2 ^ 52) = m := by omega
    rw [hm']
    exact Nat.min_eq_right (Nat.le_of_lt h)

end MiniPascal.Binary64
