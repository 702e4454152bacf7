import Mathlib.Tactic.Common
import MiniPascal.Number.RealStyle

/-!
What is written for a double reads back as that double. Only the value of a decimal counts, not how
its zeros are shared between the digits and the exponent.
-/

set_option autoImplicit false
set_option relaxedAutoImplicit false

namespace MiniPascal

namespace Decimal

private theorem pow_add (m n : Nat) : Nat.pow 10 (m + n) = Nat.pow 10 m * Nat.pow 10 n :=
  Nat.pow_add 10 m n

private theorem pow_pos (n : Nat) : 0 < Nat.pow 10 n :=
  Nat.pow_pos (by decide)

private theorem magnitude_shift (n k : Nat) (e : Int) :
    magnitude ⟨n * Nat.pow 10 k, e⟩ = magnitude ⟨n, e + k⟩ := by
  unfold magnitude
  simp only
  rcases Int.le_total 0 e with he | he
  · have hk : (e + k).toNat = k + e.toNat := by omega
    have hneg : (-e).toNat = (-(e + k)).toNat := by omega
    rw [hk, hneg, pow_add, Nat.mul_assoc]
  · have hzero : e.toNat = 0 := by omega
    rw [hzero]
    rcases Int.le_total (e + k) 0 with hek | hek
    · have hk : (-e).toNat = (-(e + k)).toNat + k := by omega
      have hsum : (e + k).toNat = 0 := by omega
      rw [hk, hsum, pow_add, Nat.mul_right_comm, Binary64.nearest_mul_right _ _ _ (pow_pos k)]
    · obtain ⟨i, j, hi, hj, hk⟩ : ∃ i j, (e + k).toNat = i ∧ (-e).toNat = j ∧ k = i + j :=
        ⟨_, _, rfl, rfl, by omega⟩
      have hneg : (-(e + k)).toNat = 0 := by omega
      have hscale := Binary64.nearest_mul_right (n * Nat.pow 10 i) 1 (Nat.pow 10 j) (pow_pos j)
      rw [Nat.one_mul, Nat.mul_assoc, ← pow_add, ← hk] at hscale
      have hone : Nat.pow 10 0 = 1 := rfl
      rw [hi, hj, hneg, hone, Nat.mul_one, hscale]

private theorem magnitude_zero (e : Int) : magnitude ⟨0, e⟩ = 0 := by
  have hscale (den : Nat) (hden : 0 < den) : Binary64.nearest 0 den = Binary64.nearest 0 1 := by
    have h := Binary64.nearest_mul_right 0 1 den hden
    rwa [Nat.zero_mul, Nat.one_mul] at h
  have hzero : Binary64.nearest 0 Binary64.unitsInOne = 0 :=
    Binary64.nearest_units (m := 0) (by decide)
  rw [hscale _ Binary64.unitsInOne_pos] at hzero
  unfold magnitude
  rw [Nat.zero_mul, hscale _ (pow_pos _), hzero]

private theorem toBinary64_eq {d : Decimal} {x : Binary64} (h : d.magnitude = x.magnitude)
    (positive : x.negative = false) : d.toBinary64 = x := by
  obtain ⟨negative, magnitude, magnitude_lt⟩ := x
  simp only at h positive
  subst h positive
  rfl

private theorem exists_zeros (d : Decimal) :
    ∃ zeros : Nat, Nat.toDigits 10 d.digits = d.significant.1 ++ List.replicate zeros '0' ∧
      d.significant.2 = d.significant.1.length + zeros + d.exponent := by
  let all := Nat.toDigits 10 d.digits
  let run := all.reverse.takeWhile (· = '0')
  have hrun : run = List.replicate run.length '0' := by
    refine List.eq_replicate_iff.mpr ⟨rfl, ?_⟩
    intro c hc
    simpa using List.all_eq_true.mp List.all_takeWhile c hc
  have hsplit : all = d.significant.1 ++ List.replicate run.length '0' := by
    have h := congrArg List.reverse
      (List.takeWhile_append_dropWhile (p := (· = '0')) (l := all.reverse))
    rw [List.reverse_append, List.reverse_reverse] at h
    rw [← List.reverse_replicate, ← hrun]
    exact h.symm
  refine ⟨run.length, hsplit, ?_⟩
  have hlength := congrArg List.length hsplit
  rw [List.length_append, List.length_replicate] at hlength
  have hbefore : d.significant.2 = all.length + d.exponent := rfl
  omega

private theorem isDigit_of_mem_significant {d : Decimal} {c : Char} (h : c ∈ d.significant.1) :
    c.isDigit = true := by
  obtain ⟨zeros, hsplit, -⟩ := d.exists_zeros
  have hc : c ∈ Nat.toDigits 10 d.digits := by
    rw [hsplit]
    exact List.mem_append_left _ h
  exact Nat.isDigit_of_mem_toDigits (by decide) (by decide) hc

private theorem ofDigitChars_zeros (digits : List Char) (n : Nat) :
    Nat.ofDigitChars 10 (digits ++ List.replicate n '0') 0 =
      Nat.ofDigitChars 10 digits 0 * Nat.pow 10 n := by
  rw [Nat.ofDigitChars_append, Nat.ofDigitChars_replicate_zero]
  exact Nat.mul_comm _ _

private theorem magnitude_significant (d : Decimal) :
    magnitude ⟨Nat.ofDigitChars 10 d.significant.1 0, d.significant.2 - d.significant.1.length⟩ =
      d.magnitude := by
  obtain ⟨zeros, hsplit, hbefore⟩ := d.exists_zeros
  have hvalue : d.digits = Nat.ofDigitChars 10 d.significant.1 0 * Nat.pow 10 zeros := by
    rw [← ofDigitChars_zeros, ← hsplit, Nat.ofDigitChars_ten_toDigits]
  have hexponent : d.significant.2 - d.significant.1.length = d.exponent + zeros := by omega
  rw [hexponent, ← magnitude_shift, ← hvalue]

end Decimal

namespace RealStyle

private theorem exists_writePositional (digits : List Char) (before : Int) :
    ∃ whole fraction, value.writePositional digits before = whole ++ '.' :: fraction ∧
      whole ++ fraction ≠ [] ∧ (∀ c ∈ whole ++ fraction, c = '0' ∨ c ∈ digits) ∧
      (Decimal.ofDigits whole fraction).magnitude =
        Decimal.magnitude ⟨Nat.ofDigitChars 10 digits 0, before - digits.length⟩ := by
  unfold writePositional
  split
  · refine ⟨['0'], List.replicate (-before).toNat '0' ++ digits, rfl, by simp, ?_, ?_⟩
    · intro c hc
      simp only [List.singleton_append, List.mem_cons, List.mem_append, List.mem_replicate] at hc
      tauto
    · have hvalue :
          Nat.ofDigitChars 10 (['0'] ++ (List.replicate (-before).toNat '0' ++ digits)) 0 =
            Nat.ofDigitChars 10 digits 0 := by
        rw [Nat.ofDigitChars_append, Nat.ofDigitChars_append, Nat.ofDigitChars_replicate_zero]
        rfl
      rw [Decimal.ofDigits, hvalue, List.length_append, List.length_replicate]
      congr 2
      omega
  · split
    · rename_i hpos hle
      obtain ⟨pad, hpad⟩ : ∃ pad, before.toNat - digits.length = pad := ⟨_, rfl⟩
      rw [hpad]
      refine ⟨digits ++ List.replicate pad '0', ['0'], by simp [value], by simp, ?_, ?_⟩
      · intro c hc
        simp only [List.mem_append, List.mem_replicate, List.mem_singleton] at hc
        tauto
      · have hdigits : digits ++ List.replicate pad '0' ++ ['0'] =
            digits ++ List.replicate (pad + 1) '0' := by
          rw [List.append_assoc, List.replicate_succ']
        have hplace : before - digits.length = -1 + ((pad + 1 : Nat) : Int) := by omega
        rw [Decimal.ofDigits, hdigits, Decimal.ofDigitChars_zeros, hplace, Decimal.magnitude_shift]
        rfl
    · rename_i hpos hlt
      refine ⟨digits.take before.toNat, digits.drop before.toNat, rfl, ?_, ?_, ?_⟩
      · rw [List.take_append_drop]
        rintro rfl
        simp only [List.length_nil] at hlt
        omega
      · intro c hc
        rw [List.take_append_drop] at hc
        exact .inr hc
      · rw [Decimal.ofDigits, List.take_append_drop, List.length_drop]
        congr 2
        omega

private theorem writeMagnitude_eq {m : Nat} (h : m ≠ 0) :
    value.writeMagnitude m =
      value.writePositional (Decimal.shortest .up m).significant.1
        (Decimal.shortest .up m).significant.2 := by
  have htie : value.tie = .up := rfl
  have hpositional (e : Int) : value.positional e = true := rfl
  rw [writeMagnitude, if_neg h, htie]
  generalize (Decimal.shortest .up m).significant = s
  simp only [hpositional, if_true]

theorem exists_write {x : Binary64} (finite : x.isFinite = true) (positive : x.negative = false) :
    ∃ whole fraction, value.write x = whole ++ '.' :: fraction ∧ whole ++ fraction ≠ [] ∧
      (∀ c ∈ whole ++ fraction, c.isDigit = true) ∧
      (Decimal.ofDigits whole fraction).toBinary64 = x := by
  have hwrite : value.write x = value.writeMagnitude x.magnitude := by
    simp [write, Binary64.isNaN_eq_false_of_isFinite finite, positive, finite]
  have hlt : x.magnitude < Binary64.infinity := by simpa [Binary64.isFinite] using finite
  rw [hwrite]
  by_cases hzero : x.magnitude = 0
  · have hdecimal : Decimal.ofDigits ['0'] ['0'] = ⟨0, -1⟩ := rfl
    have htext : value.writeMagnitude 0 = ['0'] ++ '.' :: ['0'] := rfl
    rw [hzero]
    refine ⟨['0'], ['0'], htext, by simp, by simp, Decimal.toBinary64_eq ?_ positive⟩
    rw [hzero, hdecimal, Decimal.magnitude_zero]
  · obtain ⟨whole, fraction, htext, some_digit, hdigits, hvalue⟩ := exists_writePositional
      (Decimal.shortest .up x.magnitude).significant.1
      (Decimal.shortest .up x.magnitude).significant.2
    rw [writeMagnitude_eq hzero]
    refine ⟨whole, fraction, htext, some_digit, ?_, Decimal.toBinary64_eq ?_ positive⟩
    · intro c hc
      rcases hdigits c hc with rfl | hc
      · rfl
      · exact Decimal.isDigit_of_mem_significant hc
    · rw [hvalue, Decimal.magnitude_significant, Decimal.magnitude_shortest .up hlt]

theorem write_negate {x : Binary64} (finite : x.isFinite = true) (negative : x.negative = true) :
    value.write x = '-' :: value.write x.negate := by
  have hfinite : x.negate.isFinite = true := finite
  have hpositive : x.negate.negative = false := by simp [Binary64.negate, negative]
  have hmagnitude : x.negate.magnitude = x.magnitude := rfl
  simp [write, Binary64.isNaN_eq_false_of_isFinite finite,
    Binary64.isNaN_eq_false_of_isFinite hfinite, negative, hpositive, finite, hfinite, hmagnitude]

end RealStyle

end MiniPascal
