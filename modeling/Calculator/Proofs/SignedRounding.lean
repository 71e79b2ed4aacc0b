import Calculator.Proofs.DoubleOrder
import Calculator.Proofs.Range
import Calculator.Proofs.RoundingTwice

namespace Calculator

open Calculator.Binary64

namespace Decimal

theorem significantCode_zero (digits : Nat) : significantCode digits 0 = 0 := by
  have hkept : keepDigits digits (steps 0) = steps 0 := by
    rw [steps_zero]
    exact keepDigits_of_dvd (Nat.dvd_zero _)
  rw [significantCode, hkept, codeOfSteps_steps (Nat.zero_le _)]

/-- The code that a magnitude is rounded to. Infinity is kept. -/
def roundedCode (digits c : Nat) : Nat :=
  if c < infinityCode then significantCode (max 1 (min digits 17)) c else c

theorem roundedCode_of_lt {digits c : Nat} (h : c < infinityCode) :
    roundedCode digits c = significantCode (max 1 (min digits 17)) c :=
  if_pos h

theorem roundedCode_of_le {digits c : Nat} (h : infinityCode ≤ c) :
    roundedCode digits c = c :=
  if_neg (Nat.not_lt_of_le h)

theorem roundedCode_zero (digits : Nat) : roundedCode digits 0 = 0 := by
  rw [roundedCode_of_lt (by decide), significantCode_zero]

theorem roundedCode_le {digits c : Nat} (h : c ≤ infinityCode) :
    roundedCode digits c ≤ infinityCode := by
  rcases Nat.lt_or_eq_of_le h with hlt | rfl
  · rw [roundedCode_of_lt hlt]
    exact Precision.significantCode_le _ _
  · rw [roundedCode_of_le (Nat.le_refl _)]

theorem roundedCode_pos {digits c : Nat} (h : 0 < c) : 0 < roundedCode digits c := by
  unfold roundedCode
  split
  · exact significantCode_pos (Precision.clamp_bounds digits).1 h
  · exact h

theorem roundedCode_mono (digits c e : Nat) (h : c ≤ e) :
    roundedCode digits c ≤ roundedCode digits e := by
  rcases Nat.eq_zero_or_pos c with rfl | hpos
  · rw [roundedCode_zero]
    exact Nat.zero_le _
  · by_cases hfinite : e < infinityCode
    · rw [roundedCode_of_lt (Nat.lt_of_le_of_lt h hfinite), roundedCode_of_lt hfinite]
      exact significantCode_mono (Precision.clamp_bounds digits).1 hpos h
    · have he := Nat.le_of_not_lt hfinite
      rw [roundedCode_of_le he]
      by_cases hc : c ≤ infinityCode
      · exact Nat.le_trans (roundedCode_le hc) he
      · rw [roundedCode_of_le (Nat.le_of_not_le hc)]
        exact h

end Decimal

open Calculator.Decimal

namespace Binary64

theorem isNaN_of_infinityCode_lt {x : Float} (h : infinityCode < code x) : x.isNaN := by
  change x.toModel.unpack.isNaN
  rw [unpack_of_infinityCode_lt h]
  rfl

theorem code_le_of_isNaN_eq_false {x : Float} (h : x.isNaN = false) :
    code x ≤ infinityCode := by
  apply Nat.le_of_not_lt
  intro hlt
  rw [isNaN_of_infinityCode_lt hlt] at h
  contradiction

theorem beq_zero_iff {x : Float} : x == 0 ↔ code x = 0 := by
  constructor
  · exact code_eq_zero_of_beq_zero
  · intro hcode
    by_contra hzero
    have hfinite : x.isFinite := (isFinite_iff x).mpr (by rw [hcode]; decide)
    exact Nat.ne_of_gt (code_pos_of_ne_zero hfinite hzero) hcode

theorem rank_ofCode (negative : Bool) {c : Nat} (h : c ≤ infinityCode) :
    rank (ofCode negative c) = signed negative c := by
  rw [rank, isNegative_ofCode negative h, code_ofCode negative h]

theorem rank_zero : rank 0 = 0 :=
  rank_ofCode false (Nat.zero_le _)

end Binary64

section

variable {digits : Nat} {x : Float}

theorem roundToDigits_eq_ofCode (hx : code x ≤ infinityCode) (hzero : ¬ x == 0) :
    roundToDigits digits x = ofCode (isNegative x) (roundedCode digits (code x)) := by
  rw [roundToDigits, if_neg hzero]
  by_cases hfinite : x.isFinite
  · rw [if_pos hfinite, roundedCode_of_lt ((isFinite_iff x).mp hfinite)]
  · have hcode : infinityCode ≤ code x :=
      Nat.le_of_not_lt (mt (isFinite_iff x).mpr hfinite)
    rw [if_neg hfinite, roundedCode_of_le hcode, ofCode_code_of_le hx]

theorem code_roundToDigits (hx : code x ≤ infinityCode) :
    code (roundToDigits digits x) = roundedCode digits (code x) := by
  by_cases hzero : x == 0
  · rw [roundToDigits, if_pos hzero, beq_zero_iff.mp hzero, roundedCode_zero]
    decide
  · rw [roundToDigits_eq_ofCode hx hzero, code_ofCode _ (roundedCode_le hx)]

theorem rank_roundToDigits (hx : code x ≤ infinityCode) :
    rank (roundToDigits digits x) = signed (isNegative x) (roundedCode digits (code x)) := by
  by_cases hzero : x == 0
  · rw [roundToDigits, if_pos hzero, rank_zero, beq_zero_iff.mp hzero, roundedCode_zero]
    cases isNegative x <;> rfl
  · rw [roundToDigits_eq_ofCode hx hzero, rank_ofCode _ (roundedCode_le hx)]

theorem code_roundToDigits_le (hx : code x ≤ infinityCode) :
    code (roundToDigits digits x) ≤ infinityCode := by
  rw [code_roundToDigits hx]
  exact roundedCode_le hx

theorem roundToDigits_mono {y : Float} (h : x ≤ y) :
    roundToDigits digits x ≤ roundToDigits digits y := by
  obtain ⟨hx, hy⟩ := code_le_of_le h
  rw [le_iff_rank (code_roundToDigits_le hx) (code_roundToDigits_le hy),
    rank_roundToDigits hx, rank_roundToDigits hy]
  exact signed_mono (roundedCode_zero digits) (roundedCode_mono digits)
    ((le_iff_rank hx hy).mp h)

theorem roundToDigits_neg (hx : code x ≤ infinityCode) (hzero : ¬ x == 0) :
    roundToDigits digits (-x) = -roundToDigits digits x := by
  have hcode : code (-x) = code x := by rw [neg_of_code_le hx, code_ofCode _ hx]
  have hsign : isNegative (-x) =
      !isNegative x := by rw [neg_of_code_le hx, isNegative_ofCode _ hx]
  have hneg : code (-x) ≤ infinityCode := hcode.symm ▸ hx
  have hnonzero : ¬ -x == 0 := by rwa [beq_zero_iff, hcode, ← beq_zero_iff]
  have hrounded : roundedCode digits (code x) ≤ infinityCode := roundedCode_le hx
  rw [roundToDigits_eq_ofCode hneg hnonzero, roundToDigits_eq_ofCode hx hzero,
    hcode, hsign,
    neg_of_code_le (by rwa [code_ofCode _ hrounded]), code_ofCode _ hrounded,
    isNegative_ofCode _ hrounded]

end

/-- Rounding keeps the order of doubles. What is not zero is rounded to something of
the same sign that is not zero either, and its opposite to the opposite. -/
theorem roundToDigits_order_sign (digits : Nat) :
    (∀ x y : Float, x ≤ y → roundToDigits digits x ≤ roundToDigits digits y) ∧
      ∀ x : Float, x.isNaN = false → ¬ x == 0 →
        roundToDigits digits (-x) = -roundToDigits digits x ∧
        ¬ roundToDigits digits x == 0 ∧
        isNegative (roundToDigits digits x) = isNegative x ∧
        (0 < roundToDigits digits x ↔ 0 < x) ∧
        (roundToDigits digits x < 0 ↔ x < 0) := by
  constructor
  · intro x y h
    exact roundToDigits_mono h
  · intro x hnan hzero
    have hx := code_le_of_isNaN_eq_false hnan
    have hrounded : code (roundToDigits digits x) ≤ infinityCode :=
      code_roundToDigits_le hx
    have hzeroCode : code 0 ≤ infinityCode := by decide
    have hpos : 0 < code x := Nat.pos_of_ne_zero (mt beq_zero_iff.mpr hzero)
    have hroundedPos : 0 < roundedCode digits (code x) := roundedCode_pos hpos
    refine ⟨roundToDigits_neg hx hzero, ?_, ?_, ?_, ?_⟩
    · rw [beq_zero_iff, code_roundToDigits hx]
      exact Nat.ne_of_gt hroundedPos
    · rw [roundToDigits_eq_ofCode hx hzero, isNegative_ofCode _ (roundedCode_le hx)]
    · rw [lt_iff_rank hzeroCode hrounded, lt_iff_rank hzeroCode hx, rank_zero,
        rank_roundToDigits hx, signed_pos_iff hroundedPos, rank, signed_pos_iff hpos]
    · rw [lt_iff_rank hrounded hzeroCode, lt_iff_rank hx hzeroCode, rank_zero,
        rank_roundToDigits hx, signed_neg_iff hroundedPos, rank, signed_neg_iff hpos]

/-- The smallest double above zero is rounded to itself to one digit, and stays
above its opposite. -/
theorem roundToDigits_order_sign_smallest :
    roundToDigits 1 (ofCode true 1) ≤ roundToDigits 1 (ofCode false 1) ∧
      roundToDigits 1 (-ofCode false 1) = -roundToDigits 1 (ofCode false 1) ∧
      0 < roundToDigits 1 (ofCode false 1) := by
  obtain ⟨hmono, hsign⟩ := roundToDigits_order_sign 1
  obtain ⟨hneg, -, -, hpos, -⟩ := hsign (ofCode false 1) (by decide) (by decide)
  exact ⟨hmono _ _ (by decide), hneg, hpos.mpr (by decide)⟩

end Calculator
