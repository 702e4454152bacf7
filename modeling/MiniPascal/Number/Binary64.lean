/-!
Double precision numbers by their bit patterns. A pattern is a sign and a 63-bit magnitude; the
magnitudes are ordered as the absolute values they stand for, so that finiteness, sign and exact
value are questions about natural numbers. Arithmetic is left to the machine's floating point unit.
-/

set_option autoImplicit false
set_option relaxedAutoImplicit false

namespace MiniPascal

/-- A double: its sign bit and the pattern of its absolute value. -/
structure Binary64 where
  negative : Bool
  magnitude : Nat
  magnitude_lt : magnitude < Nat.pow 2 63
  deriving DecidableEq

namespace Binary64

/-- The magnitude of infinity. Smaller magnitudes are finite numbers, larger ones no numbers. -/
def infinity : Nat := 2047 * Nat.pow 2 52

def isFinite (x : Binary64) : Bool := x.magnitude < infinity

def isNaN (x : Binary64) : Bool := infinity < x.magnitude

def isZero (x : Binary64) : Bool := x.magnitude = 0

def negate (x : Binary64) : Binary64 := { x with negative := !x.negative }

/-- Numerical equality: a NaN equals nothing, and the two zeros equal each other. -/
def same (x y : Binary64) : Bool :=
  !x.isNaN && (x = y || (x.isZero && y.isZero))

def finest : Nat := 1074

/-- How many times the least positive double goes into one. -/
def unitsInOne : Nat := Nat.pow 2 finest

/-- The absolute value of a finite magnitude, counted in units of the least positive double.
Below the first power of two the pattern is that count; above, its low 52
bits follow a leading one and the upper bits tell how far that is shifted. -/
def units (magnitude : Nat) : Nat :=
  if magnitude < Nat.pow 2 52 then magnitude
  else (Nat.pow 2 52 + magnitude % Nat.pow 2 52) * Nat.pow 2 (magnitude / Nat.pow 2 52 - 1)

def floor (x : Binary64) : Int :=
  (if x.negative then -(units x.magnitude : Int) else units x.magnitude) / unitsInOne

def toBits (x : Binary64) : Nat :=
  if x.negative then Nat.pow 2 63 + x.magnitude else x.magnitude

def ofBits (bits : Nat) : Binary64 where
  negative := bits % Nat.pow 2 64 / Nat.pow 2 63 = 1
  magnitude := bits % Nat.pow 2 63
  magnitude_lt := Nat.mod_lt _ (by decide)

def toFloat (x : Binary64) : Float := Float.ofBits (UInt64.ofNat x.toBits)

def ofFloat (x : Float) : Binary64 := ofBits x.toBits.toNat

protected def add (x y : Binary64) : Binary64 := ofFloat (x.toFloat + y.toFloat)

protected def sub (x y : Binary64) : Binary64 := ofFloat (x.toFloat - y.toFloat)

protected def mul (x y : Binary64) : Binary64 := ofFloat (x.toFloat * y.toFloat)

protected def div (x y : Binary64) : Binary64 := ofFloat (x.toFloat / y.toFloat)

instance : Add Binary64 := ⟨Binary64.add⟩

instance : Sub Binary64 := ⟨Binary64.sub⟩

instance : Mul Binary64 := ⟨Binary64.mul⟩

instance : Div Binary64 := ⟨Binary64.div⟩

@[simp] theorem isFinite_negate (x : Binary64) : x.negate.isFinite = x.isFinite := rfl

@[simp] theorem negate_negate (x : Binary64) : x.negate.negate = x := by
  simp [negate]

theorem isNaN_eq_false_of_isFinite {x : Binary64} (h : x.isFinite = true) : x.isNaN = false := by
  simp only [isFinite, isNaN, decide_eq_true_eq, decide_eq_false_iff_not] at *
  omega

theorem same_self {x : Binary64} (h : x.isFinite = true) : x.same x = true := by
  simp [same, isNaN_eq_false_of_isFinite h]

theorem unitsInOne_pos : 0 < unitsInOne := by
  unfold unitsInOne
  generalize finest = n
  exact Nat.two_pow_pos n

theorem ofBits_toBits (x : Binary64) : ofBits x.toBits = x := by
  obtain ⟨s, m, h⟩ := x
  simp only [Nat.pow_eq] at h
  cases s <;> simp only [ofBits, toBits, mk.injEq, Nat.pow_eq, Bool.false_eq_true, if_false, if_true,
    decide_eq_true_eq, decide_eq_false_iff_not] <;> omega

end Binary64

end MiniPascal
