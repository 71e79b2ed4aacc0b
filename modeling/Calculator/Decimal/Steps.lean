import Calculator.Decimal

namespace Calculator.Decimal

open Calculator.Binary64

/-- How many steps of 10⁻¹⁰⁷⁴ one unit of 2⁻¹⁰⁷⁴ holds. -/
def stepsPerUnit : Nat := powerOfFive unitExponent

/-- The finite magnitude with code `c` in steps of 10⁻¹⁰⁷⁴. -/
def steps (c : Nat) : Nat :=
  units c * stepsPerUnit

/-- The code of the double nearest to `n` steps of 10⁻¹⁰⁷⁴. -/
def codeOfSteps (n : Nat) : Nat :=
  nearestCode n stepsPerUnit

/-- The number of decimal digits of `n`, counted on from `d`, a number of
digits that it has. -/
def countFrom (n d : Nat) : Nat :=
  if powerOfTen d ≤ n then countFrom n (d + 1) else d
termination_by n - d
decreasing_by
  have := lt_powerOfTen d
  omega

/-- The number of decimal digits of `n`, none for zero. The count starts
from an estimate by the binary logarithm: 0.30102 is a little less than the
decimal logarithm of 2. -/
def digitCount (n : Nat) : Nat :=
  let estimate := n.log2 * 30102 / 100000
  countFrom n (if powerOfTen estimate ≤ n then estimate else 0)

theorem stepsPerUnit_pos : 0 < stepsPerUnit :=
  powerOfFive_pos _

theorem stepsPerUnit_shiftLeft :
    stepsPerUnit <<< unitExponent = powerOfTen unitExponent := by
  rw [stepsPerUnit, powerOfFive_shiftLeft]

theorem codeOfSteps_steps {c : Nat} (h : c ≤ infinityCode) :
    codeOfSteps (steps c) = c := by
  rw [codeOfSteps, steps, Nat.mul_comm]
  exact nearestCode_units h stepsPerUnit_pos

theorem code_eq_codeOfSteps {d : Decimal} {n : Nat}
    (h : d.coefficient * powerOfTen unitExponent = n * powerOfTen d.places) :
    d.code = codeOfSteps n := by
  refine nearestCode_congr (powerOfTen_pos _) stepsPerUnit_pos ?_
  rw [← h, ← stepsPerUnit_shiftLeft, Nat.shiftLeft_eq, Nat.shiftLeft_eq, Nat.mul_assoc,
    Nat.mul_comm stepsPerUnit]

theorem lt_powerOfTen_countFrom (n d : Nat) : n < powerOfTen (countFrom n d) := by
  fun_induction countFrom n d with
  | case1 d _ ih => exact ih
  | case2 d h => omega

theorem powerOfTen_countFrom_le {n d : Nat} (h : d = 0 ∨ powerOfTen (d - 1) ≤ n) :
    countFrom n d = 0 ∨ powerOfTen (countFrom n d - 1) ≤ n := by
  fun_induction countFrom n d with
  | case1 d hd ih => exact ih (.inr hd)
  | case2 d _ => exact h

theorem lt_powerOfTen_digitCount (n : Nat) : n < powerOfTen (digitCount n) :=
  lt_powerOfTen_countFrom _ _

theorem powerOfTen_digitCount_le {n : Nat} (h : 0 < n) :
    powerOfTen (digitCount n - 1) ≤ n := by
  have hcount : digitCount n = 0 ∨ powerOfTen (digitCount n - 1) ≤ n := by
    refine powerOfTen_countFrom_le ?_
    split
    · rename_i hle
      exact .inr (Nat.le_trans (powerOfTen_le (Nat.sub_le _ _)) hle)
    · exact .inl rfl
  rcases hcount with hzero | hle
  · rw [hzero]
    exact h
  · exact hle

end Calculator.Decimal
