import Calculator.Proofs.Range
import Calculator.Proofs.RoundingTwice

namespace Calculator

open Calculator.Binary64

theorem roundToDigits_of_beq_zero {digits : Nat} {x : Float} (h : x == 0) :
    roundToDigits digits x = 0 :=
  if_pos h

namespace Precision

theorem exact_round_of_beq_zero {x : Float} (h : x == 0) : exact.round x = 0 :=
  if_pos h

theorem exact_round_of_ne_zero {x : Float} (h : ¬ x == 0) : exact.round x = x :=
  if_neg h

theorem round_digits_eq (digits : Nat) (x : Float) :
    round ⟨some digits⟩ x = roundToDigits digits (exact.round x) := by
  change roundToDigits digits x = _
  by_cases hzero : x == 0
  · rw [exact_round_of_beq_zero hzero, roundToDigits_of_beq_zero hzero,
      roundToDigits_of_beq_zero (by decide)]
  · rw [exact_round_of_ne_zero hzero]

theorem round_of_le {digits : Nat} (h : 17 ≤ digits) (x : Float) :
    round ⟨some digits⟩ x = exact.round x := by
  rw [round_digits_eq]
  by_cases hzero : x == 0
  · rw [exact_round_of_beq_zero hzero, roundToDigits_of_beq_zero (by decide)]
  · rw [exact_round_of_ne_zero hzero, roundToDigits, if_neg hzero]
    by_cases hfinite : x.isFinite
    · have hdigits : 17 ≤ max 1 (min digits 17) := by omega
      have hkept := Decimal.significantCode_of_le hdigits (code_pos_of_ne_zero hfinite hzero)
        ((isFinite_iff x).mp hfinite)
      rw [if_pos hfinite, hkept, ofCode_code hfinite]
    · rw [if_neg hfinite]

end Precision

/-- A number of digits changes nothing of an evaluation but its value, which is
rounded to so many digits, and from seventeen digits on not even that. -/
theorem evaluate_digits_eq_map_exact (digits : Nat) (tokens : List Token) :
    evaluate ⟨some digits⟩ tokens = roundToDigits digits <$> evaluate .exact tokens ∧
      evaluateSegment ⟨some digits⟩ tokens =
        roundToDigits digits <$> evaluateSegment .exact tokens ∧
      (17 ≤ digits → evaluate ⟨some digits⟩ tokens = evaluate .exact tokens ∧
        evaluateSegment ⟨some digits⟩ tokens = evaluateSegment .exact tokens) := by
  have hround : Precision.round ⟨some digits⟩ =
      roundToDigits digits ∘ Precision.exact.round :=
    funext (Precision.round_digits_eq digits)
  refine ⟨?_, ?_, ?_⟩
  · rw [evaluate, evaluate, hround, comp_map]
  · unfold evaluateSegment
    split
    · rfl
    · rw [hround, comp_map]
  · intro hdigits
    have hexact : Precision.round ⟨some digits⟩ = Precision.exact.round :=
      funext (Precision.round_of_le hdigits)
    constructor
    · rw [evaluate, evaluate, hexact]
    · rw [evaluateSegment, evaluateSegment, hexact]

theorem evaluate_twenty_digits_largestDouble :
    17 ≤ 20 ∧
      evaluate ⟨some 20⟩ [.number largestDouble] = evaluate .exact [.number largestDouble] ∧
      (evaluate ⟨some 20⟩ [.number largestDouble]).result = .ok largestDouble := by
  have hexact :=
    ((evaluate_digits_eq_map_exact 20 [.number largestDouble]).2.2 (by decide)).1
  have hnonzero : ¬ largestDouble == 0 := by decide
  refine ⟨by decide, hexact, ?_⟩
  rw [hexact, result_evaluate_number isFinite_largestDouble,
    Precision.exact_round_of_ne_zero hnonzero]

end Calculator
