import Calculator.Binary64

namespace Calculator

def powerOfTen (n : Nat) : Nat :=
  Nat.pow 10 n

def powerOfFive (n : Nat) : Nat :=
  Nat.pow 5 n

@[simp] theorem powerOfTen_zero : powerOfTen 0 = 1 := rfl

theorem powerOfTen_succ (n : Nat) : powerOfTen (n + 1) = powerOfTen n * 10 := rfl

theorem powerOfTen_add (m n : Nat) : powerOfTen (m + n) = powerOfTen m * powerOfTen n :=
  Nat.pow_add 10 m n

theorem powerOfTen_pos (n : Nat) : 0 < powerOfTen n :=
  Nat.pow_pos (by decide)

theorem lt_powerOfTen (n : Nat) : n < powerOfTen n :=
  Nat.lt_pow_self (by decide)

theorem powerOfTen_le {m n : Nat} (h : m ≤ n) : powerOfTen m ≤ powerOfTen n :=
  Nat.pow_le_pow_right (by decide) h

theorem powerOfFive_pos (n : Nat) : 0 < powerOfFive n :=
  Nat.pow_pos (by decide)

theorem powerOfFive_shiftLeft (n : Nat) : powerOfFive n <<< n = powerOfTen n := by
  rw [Nat.shiftLeft_eq]
  exact (Nat.mul_pow 5 2 n).symm

/-- The number `coefficient / powerOfTen places`. -/
structure Decimal where
  coefficient : Nat
  places : Nat
deriving DecidableEq

namespace Decimal

open Calculator.Binary64

/-- The decimal with the digits `whole` before its point and `fraction` after it. -/
def ofDigits (whole fraction : List Char) : Decimal :=
  ⟨Nat.ofDigitChars 10 (whole ++ fraction) 0, fraction.length⟩

/-- The code of the double nearest to a decimal. -/
def code (d : Decimal) : Nat :=
  nearestCode (d.coefficient <<< unitExponent) (powerOfTen d.places)

def toFloat (d : Decimal) : Float :=
  ofCode false d.code

/-- The decimal `coefficient / powerOfTen places` without zeros at the end of its
fraction. -/
def trimmed (coefficient : Nat) : (places : Nat) → Decimal
  | 0 => ⟨coefficient, 0⟩
  | places + 1 =>
      if coefficient % 10 = 0 then trimmed (coefficient / 10) places
      else ⟨coefficient, places + 1⟩

/-- The digits of the coefficient, with zeros in front so that one stands before the
point. -/
def digits (d : Decimal) : List Char :=
  d.coefficient.repr.toList.leftpad (d.places + 1) '0'

def whole (d : Decimal) : List Char :=
  d.digits.take (d.digits.length - d.places)

def fraction (d : Decimal) : List Char :=
  d.digits.drop (d.digits.length - d.places)

/-- The decimal in positional notation, without a point where nothing follows it. -/
def chars (d : Decimal) : List Char :=
  if d.places = 0 then d.whole else d.whole ++ '.' :: d.fraction

theorem places_lt_length_digits (d : Decimal) : d.places < d.digits.length := by
  simp only [digits, List.length_leftpad]
  omega

theorem whole_append_fraction (d : Decimal) : d.whole ++ d.fraction = d.digits :=
  List.take_append_drop _ _

theorem length_fraction (d : Decimal) : d.fraction.length = d.places := by
  have := d.places_lt_length_digits
  simp only [fraction, List.length_drop]
  omega

theorem isDigit_of_mem_digits {d : Decimal} {c : Char} (h : c ∈ d.digits) :
    c.isDigit := by
  simp only [digits, List.leftpad, Nat.toList_repr, List.mem_append,
    List.mem_replicate] at h
  rcases h with ⟨-, rfl⟩ | h
  · rfl
  · exact Nat.isDigit_of_mem_toDigits (by decide) (by decide) h

theorem ofDigits_whole_fraction (d : Decimal) : ofDigits d.whole d.fraction = d := by
  have hcoefficient : Nat.ofDigitChars 10 d.digits 0 = d.coefficient := by
    simp [digits, List.leftpad, Nat.ofDigitChars_append]
  simp [ofDigits, whole_append_fraction, length_fraction, hcoefficient]

theorem coefficient_trimmed (coefficient places : Nat) :
    (trimmed coefficient places).coefficient * powerOfTen places =
      coefficient * powerOfTen (trimmed coefficient places).places := by
  induction places generalizing coefficient with
  | zero => rfl
  | succ places ih =>
      unfold trimmed
      split
      · have hdiv : coefficient / 10 * 10 = coefficient := by omega
        rw [powerOfTen_succ, ← Nat.mul_assoc, ih, Nat.mul_right_comm, hdiv]
      · rfl

end Decimal

end Calculator
