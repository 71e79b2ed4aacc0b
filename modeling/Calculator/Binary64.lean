import Calculator.Rounding

/-!
Magnitudes of doubles as natural numbers.

The bits of a double without its sign are its *code*. A finite magnitude is a whole
number of units of 2⁻¹⁰⁷⁴, given by `units`; larger codes stand for larger
magnitudes, and the code after the last finite one is infinity. `nearestCode` finds
the code nearest to a fraction of units; `nearestCode_units` says that it finds the
code of every magnitude that has one, and `nearestCode_congr` that it depends on the
value of the fraction alone.
-/

namespace Calculator.Binary64

open Calculator.Rounding

/-- The bits of `x` without its sign. -/
def code (x : Float) : Nat :=
  x.toBits.toNat % (1 <<< 63)

/-- Whether the sign bit of `x` is set. -/
def isNegative (x : Float) : Bool :=
  decide (1 <<< 63 ≤ x.toBits.toNat)

def ofCode (negative : Bool) (c : Nat) : Float :=
  .ofBits (.ofNat (if negative then (1 <<< 63) + c else c))

/-- How many times a unit has to be doubled to give one. -/
def unitExponent : Nat := 1074

/-- The code of infinity; the finite magnitudes have the codes below it. -/
def infinityCode : Nat := 2047 <<< 52

/-- How many units of 2⁻¹⁰⁷⁴ a finite magnitude holds. Below 2⁵² the code counts
units itself; above, it holds an exponent and the last 52 bits of a significand. -/
def units (c : Nat) : Nat :=
  if c < 1 <<< 52 then c else ((1 <<< 52) + c % (1 <<< 52)) <<< ((c >>> 52) - 1)

/-- The code nearest to `n / d` units, of two equally near the even one, and
infinity for what lies past the last finite magnitude by half a step or more. The
significand keeps 53 bits: `shift` is the number of bits that the whole part of
`n / d` has beyond them. -/
def nearestCode (n d : Nat) : Nat :=
  let shift := (n / d).log2 - 52
  min ((shift <<< 52) + divNearest n (d <<< shift)) infinityCode

@[simp] theorem units_zero : units 0 = 0 := rfl

theorem units_of_lt {c : Nat} (h : c < 1 <<< 53) : units c = c := by
  simp only [Nat.reduceShiftLeft] at h
  simp only [units, Nat.reduceShiftLeft]
  split
  · rfl
  · rw [show (c >>> 52) - 1 = 0 by omega, Nat.shiftLeft_zero]
    omega

theorem units_of_le {c : Nat} (h : 1 <<< 52 ≤ c) :
    units c = ((1 <<< 52) + c % (1 <<< 52)) <<< ((c >>> 52) - 1) := by
  rw [units, if_neg (Nat.not_lt.2 h)]

theorem log2_shiftLeft {m : Nat} (hle : 1 <<< 52 ≤ m) (hlt : m < 1 <<< 53) (k : Nat) :
    (m <<< k).log2 = 52 + k := by
  have hpos := Nat.two_pow_pos k
  rw [Nat.shiftLeft_eq]
  refine (Nat.log2_eq_iff (Nat.mul_ne_zero (by omega) (Nat.ne_of_gt hpos))).2 ⟨?_, ?_⟩
  · rw [Nat.pow_add]
    exact Nat.mul_le_mul_right _ hle
  · rw [Nat.add_right_comm, Nat.pow_add]
    exact Nat.mul_lt_mul_of_pos_right hlt hpos

theorem units_eq_shiftLeft (c : Nat) :
    units c = (c - ((c >>> 52) - 1) <<< 52) <<< ((c >>> 52) - 1) := by
  by_cases hsmall : c < 1 <<< 53
  · rw [units_of_lt hsmall, show (c >>> 52) - 1 = 0 by omega]
    simp
  · have hsignificand : (1 <<< 52) + c % (1 <<< 52) = c - ((c >>> 52) - 1) <<< 52 := by
      simp only [Nat.reduceShiftLeft] at *
      omega
    rw [units_of_le (by omega), hsignificand]

theorem log2_units (c : Nat) : (units c).log2 - 52 = (c >>> 52) - 1 := by
  by_cases hsmall : c < 1 <<< 53
  · have hlog : c.log2 < 53 := by
      by_cases hzero : c = 0
      · rw [hzero, Nat.log2_zero]
        decide
      · exact (Nat.log2_lt hzero).2 hsmall
    rw [units_of_lt hsmall]
    omega
  · have hmod : c % (1 <<< 52) < 1 <<< 52 := Nat.mod_lt _ (by decide)
    rw [units_of_le (by omega), log2_shiftLeft (by omega) (by omega)]
    omega

theorem nearestCode_units {c d : Nat} (hc : c ≤ infinityCode) (hd : 0 < d) :
    nearestCode (d * units c) d = c := by
  simp only [nearestCode, Nat.mul_div_cancel_left _ hd, log2_units]
  rw [units_eq_shiftLeft]
  generalize hshift : (c >>> 52) - 1 = shift
  have hpos : 0 < d <<< shift := by
    rw [Nat.shiftLeft_eq]
    exact Nat.mul_pos hd (Nat.two_pow_pos _)
  have hfactor (m : Nat) : d * m <<< shift = d <<< shift * m := by
    rw [Nat.shiftLeft_eq, Nat.shiftLeft_eq, Nat.mul_right_comm, Nat.mul_assoc]
  rw [hfactor, divNearest_mul_right hpos]
  omega

theorem nearestCode_mul_mul_left {k : Nat} (h : 0 < k) (n d : Nat) :
    nearestCode (k * n) (k * d) = nearestCode n d := by
  simp only [nearestCode, Nat.mul_div_mul_left _ _ h, Nat.shiftLeft_eq, Nat.mul_assoc,
    divNearest_mul_mul_left h]

theorem nearestCode_congr {n d m e : Nat} (hd : 0 < d) (he : 0 < e)
    (h : n * e = m * d) :
    nearestCode n d = nearestCode m e := by
  rw [← nearestCode_mul_mul_left he n d, ← nearestCode_mul_mul_left hd m e,
    Nat.mul_comm e n, h, Nat.mul_comm m d, Nat.mul_comm e d]

theorem nearestCode_le (n d : Nat) : nearestCode n d ≤ infinityCode :=
  Nat.min_le_right _ _

end Calculator.Binary64
