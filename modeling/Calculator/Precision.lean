import Calculator.Decimal.Steps

namespace Calculator

open Calculator.Binary64
open Calculator.Rounding

namespace Decimal

/-- The natural number `n` rounded to its first `digits` digits. -/
def keepDigits (digits n : Nat) : Nat :=
  let place := powerOfTen (digitCount n - digits)
  divNearest n place * place

/-- The code of a finite magnitude rounded to `digits` significant digits. -/
def significantCode (digits c : Nat) : Nat :=
  codeOfSteps (keepDigits digits (steps c))

theorem keepDigits_of_le {digits n : Nat} (h : digitCount n ≤ digits) :
    keepDigits digits n = n := by
  have hplace : digitCount n - digits = 0 := by omega
  simp [keepDigits, hplace, divNearest, Nat.mod_one]

end Decimal

/-- A double rounded to a number of significant decimal digits, between one and
seventeen. Zero loses its sign, and what is not finite is kept. -/
def roundToDigits (digits : Nat) (x : Float) : Float :=
  if x == 0 then 0
  else if x.isFinite then
    ofCode (isNegative x) (Decimal.significantCode (max 1 (min digits 17)) (code x))
  else x

/-- How answers are rounded: to a number of significant digits, or not at all. -/
structure Precision where
  digits? : Option Nat
deriving DecidableEq

namespace Precision

/-- Twelve significant digits hide the noise of binary arithmetic. -/
def standard : Precision :=
  ⟨some 12⟩

def exact : Precision :=
  ⟨none⟩

/-- Rounds an answer. Zero loses its sign also where nothing is rounded. -/
def round (precision : Precision) (x : Float) : Float :=
  match precision.digits? with
  | some digits => roundToDigits digits x
  | none => if x == 0 then 0 else x

end Precision

end Calculator
