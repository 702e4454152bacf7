import MiniPascal.Number.Decimal

/-!
The written forms of doubles. All show the fewest digits that read back; a style settles where
positional writing ends, what an integral number carries behind its point, and how an exponent is
signed.
-/

set_option autoImplicit false
set_option relaxedAutoImplicit false

namespace MiniPascal

/-- The decisions of a written form. `positional` is asked for the exponent that the number has
when one digit stands before its point. -/
structure RealStyle where
  tie : Tie
  positional : Int → Bool
  point : Bool
  plus : Bool

namespace RealStyle

/-- Values are written without an exponent, and an integral one ends in `.0`. -/
def value : RealStyle := ⟨.up, fun _ => true, true, false⟩

/-- In messages a number has neither an exponent nor an idle `.0`. -/
def plain : RealStyle := ⟨.up, fun _ => true, false, false⟩

/-- Token listings turn to an exponent below a ten-thousandth and from ten to the sixteenth on. -/
def listing : RealStyle := ⟨.up, fun e => -4 ≤ e && e < 16, true, false⟩

/-- JSON turns to an exponent below a hundred-thousandth and from ten to the sixteenth on, and
signs it. -/
def json : RealStyle := ⟨.even, fun e => -5 ≤ e && e < 16, true, true⟩

/-- Digits without an exponent, `before` of them in front of the point. -/
def writePositional (style : RealStyle) (digits : List Char) (before : Int) : List Char :=
  if before ≤ 0 then
    '0' :: '.' :: (List.replicate (-before).toNat '0' ++ digits)
  else if digits.length ≤ before.toNat then
    digits ++ List.replicate (before.toNat - digits.length) '0' ++
      (if style.point then ['.', '0'] else [])
  else
    digits.take before.toNat ++ '.' :: digits.drop before.toNat

def writeScientific (style : RealStyle) (digits : List Char) (exponent : Int) : List Char :=
  digits.take 1 ++ (if 1 < digits.length then '.' :: digits.drop 1 else []) ++
    'e' :: ((if exponent < 0 then ['-'] else if style.plus then ['+'] else []) ++
      Nat.toDigits 10 exponent.natAbs)

/-- A finite magnitude. Zero has no digit other than zero and is written positionally. -/
def writeMagnitude (style : RealStyle) (magnitude : Nat) : List Char :=
  if magnitude = 0 then '0' :: (if style.point then ['.', '0'] else [])
  else
    let (digits, before) := (Decimal.shortest style.tie magnitude).significant
    if style.positional (before - 1) then style.writePositional digits before
    else style.writeScientific digits (before - 1)

def write (style : RealStyle) (x : Binary64) : List Char :=
  if x.isNaN then ['N', 'a', 'N']
  else (if x.negative then ['-'] else []) ++
    (if x.isFinite then style.writeMagnitude x.magnitude else ['i', 'n', 'f'])

end RealStyle

end MiniPascal
