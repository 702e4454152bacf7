/-!
Integers of 64 bits. Arithmetic is done on unbounded integers and taken back; `ofInt?_eq_some_iff`
says that nothing is ever taken back wrongly. Division goes toward zero at first, and
`floorDiv?_eq` says that its correction gives the floor.
-/

set_option autoImplicit false
set_option relaxedAutoImplicit false

namespace MiniPascal.Integer

def ofInt? (n : Int) : Option Int64 :=
  if Int64.minValue.toInt ≤ n ∧ n ≤ Int64.maxValue.toInt then some (Int64.ofInt n) else none

def quotient? (m n : Int64) : Option Int64 :=
  if n = 0 then none else ofInt? (m.toInt.tdiv n.toInt)

/-- The quotient toward minus infinity. Where a remainder is left and the signs differ, it is one
less than the quotient toward zero. -/
def floorDiv? (m n : Int64) : Option Int64 :=
  match quotient? m n with
  | none => none
  | some q =>
    if m % n ≠ 0 ∧ decide (m < 0) ≠ decide (n < 0) then ofInt? (q.toInt - 1) else some q

def write (n : Int64) : List Char :=
  (if n.toInt < 0 then ['-'] else []) ++ Nat.toDigits 10 n.toInt.natAbs

theorem ofInt?_eq_some_iff {n : Int} {w : Int64} : ofInt? n = some w ↔ w.toInt = n := by
  constructor
  · intro h
    unfold ofInt? at h
    split at h
    · rename_i hn
      cases h
      rw [Int64.toInt_minValue, Int64.toInt_maxValue] at hn
      exact Int64.toInt_ofInt_of_le (by omega) (by omega)
    · cases h
  · rintro rfl
    unfold ofInt?
    rw [if_pos ⟨w.minValue_le_toInt, w.toInt_le⟩, Int64.ofInt_toInt]

theorem ofInt?_eq_none_iff {n : Int} :
    ofInt? n = none ↔ n < Int64.minValue.toInt ∨ Int64.maxValue.toInt < n := by
  rw [ofInt?, ite_eq_right_iff]
  simp only [reduceCtorEq, imp_false]
  omega

theorem mod_eq_zero_iff {m n : Int64} : m % n = 0 ↔ n.toInt ∣ m.toInt := by
  rw [← Int64.toInt_inj, Int64.toInt_mod, Int64.toInt_zero, Int.dvd_iff_tmod_eq_zero]

private theorem two_mul_natAbs_tdiv_le {m n : Int} (h : ¬ n ∣ m) :
    2 * (m.tdiv n).natAbs ≤ m.natAbs := by
  by_cases hzero : n = 0
  · subst hzero
    rw [Int.tdiv_zero]
    exact Nat.zero_le _
  · rw [Int.natAbs_tdiv]
    have hone : n.natAbs ≠ 1 := fun hn => h (Int.natAbs_dvd.mp (hn ▸ Int.one_dvd m))
    have htwo : 2 ≤ n.natAbs := by omega
    exact Nat.le_trans (Nat.mul_le_mul_right _ htwo) (Nat.mul_div_le _ _)

theorem exists_ofInt?_pred {m n : Int64} (h : ¬ n.toInt ∣ m.toInt) :
    ∃ q w, ofInt? (m.toInt.tdiv n.toInt) = some q ∧ ofInt? (q.toInt - 1) = some w := by
  have hsize := two_mul_natAbs_tdiv_le h
  have hlow := m.minValue_le_toInt
  have hhigh := m.toInt_le
  have fits (k : Int) (hk : 2 * (k + 1).natAbs ≤ m.toInt.natAbs ∨ 2 * k.natAbs ≤ m.toInt.natAbs) :
      ∃ w, ofInt? k = some w := by
    rw [← Option.isSome_iff_exists, Option.isSome_iff_ne_none, ne_eq, ofInt?_eq_none_iff]
    rw [Int64.toInt_minValue] at hlow ⊢
    rw [Int64.toInt_maxValue] at hhigh ⊢
    omega
  obtain ⟨q, hq⟩ := fits _ (.inr hsize)
  have hvalue := ofInt?_eq_some_iff.mp hq
  obtain ⟨w, hw⟩ := fits (q.toInt - 1) (.inl (by rwa [Int.sub_add_cancel, hvalue]))
  exact ⟨q, w, hq, hw⟩

private theorem fdiv_eq_tdiv_sub (m n : Int) (hn : n ≠ 0) : m.fdiv n =
    m.tdiv n - if ¬ n ∣ m ∧ decide (m < 0) ≠ decide (n < 0) then 1 else 0 := by
  rw [Int.fdiv_eq_tdiv]
  by_cases h : n ∣ m
  · simp [h]
  · rcases Int.lt_or_gt_of_ne hn with hneg | hpos
    · by_cases hm : m < 0
      · simp [h, hm, hneg, Int.not_le.mpr hm, Int.not_le.mpr hneg, Int.sign_eq_neg_one_of_neg hneg]
      · simp [h, hm, hneg, Int.not_lt.mp hm, Int.not_le.mpr hneg]
    · have hn' : ¬ n < 0 := by omega
      by_cases hm : m < 0
      · simp [h, hm, hn', Int.not_le.mpr hm, Int.le_of_lt hpos, Int.sign_eq_one_of_pos hpos]
      · simp [h, hm, hn', Int.not_lt.mp hm, Int.le_of_lt hpos]

/-- The correction of the quotient toward zero leads to the floor, and what fits does not change. -/
theorem floorDiv?_eq {m n : Int64} (hn : n ≠ 0) :
    floorDiv? m n = ofInt? (m.toInt.fdiv n.toInt) := by
  have hzero : n.toInt ≠ 0 := by rwa [← Int64.toInt_zero, ne_eq, Int64.toInt_inj]
  rw [floorDiv?, quotient?, if_neg hn, fdiv_eq_tdiv_sub _ _ hzero]
  simp only [ne_eq, mod_eq_zero_iff, Int64.lt_iff_toInt_lt, Int64.toInt_zero]
  by_cases hdvd : n.toInt ∣ m.toInt
  · simp only [hdvd, not_true_eq_false, false_and, if_false, Int.sub_zero]
    cases ofInt? (m.toInt.tdiv n.toInt) <;> rfl
  · obtain ⟨q, w, hq, hw⟩ := exists_ofInt?_pred hdvd
    have hvalue := ofInt?_eq_some_iff.mp hq
    simp only [hq]
    split
    · rw [hvalue]
    · rw [Int.sub_zero, hq]

end MiniPascal.Integer
