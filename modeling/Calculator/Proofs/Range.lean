import Calculator.Proofs.Confluence
import Calculator.Proofs.DoubleBits
import Calculator.Proofs.Reading
import Calculator.Proofs.RoundingOrder

namespace Calculator

open Calculator.Binary64

namespace Decimal

open Calculator.Rounding

def largestCode : Nat := infinityCode - 1

/-- The numbers of digits to which the largest double is not rounded up. -/
def safeDigits : List Nat := [6, 7, 8, 9, 12, 13, 14, 17]

theorem digitCount_steps_largestCode : digitCount (steps largestCode) = 1383 := by
  have hlow : powerOfTen 1382 ≤ steps largestCode := by decide +kernel
  have hhigh : steps largestCode < powerOfTen 1383 := by decide +kernel
  exact digitCount_eq hlow hhigh

theorem significantCode_largestCode_lt_iff {digits : Nat} (hpos : 0 < digits)
    (hle : digits ≤ 17) :
    significantCode digits largestCode < infinityCode ↔ digits ∈ safeDigits := by
  have hcheck : ∀ digits < 18, 0 < digits →
      (codeOfSteps (divNearest (steps largestCode) (powerOfTen (1383 - digits)) *
        powerOfTen (1383 - digits)) < infinityCode ↔ digits ∈ safeDigits) := by
    decide +kernel
  rw [significantCode, keepDigits, digitCount_steps_largestCode]
  exact hcheck digits (Nat.lt_succ_of_le hle) hpos

theorem significantCode_lt_of_mem {digits c : Nat} (h : digits ∈ safeDigits)
    (hpos : 0 < digits) (hle : digits ≤ 17) (hc : 0 < c) (hlt : c < infinityCode) :
    significantCode digits c < infinityCode :=
  Nat.lt_of_le_of_lt (significantCode_mono hpos hc (Nat.le_pred_of_lt hlt))
    ((significantCode_largestCode_lt_iff hpos hle).mpr h)

end Decimal

namespace Binary64

theorem isNaN_eq_false {x : Float} (h : code x ≤ infinityCode) : x.isNaN = false := by
  rw [Float.isNaN_eq_decide_eq_nan, decide_eq_false_iff_not]
  rintro rfl
  have hnan : ¬ code Float.nan ≤ infinityCode := by decide
  exact hnan h

theorem ne_neg_zero_of_code_pos {x : Float} (h : 0 < code x) : x ≠ -0 := by
  rintro rfl
  have hzero : code (-0) = 0 := by decide
  rw [hzero] at h
  exact Nat.lt_irrefl 0 h

theorem code_pos_of_ne_zero {x : Float} (hfinite : x.isFinite) (h : ¬ x == 0) :
    0 < code x := by
  apply Nat.pos_of_ne_zero
  intro hcode
  have hzero : ∀ negative, ofCode negative 0 == 0 := by decide
  have hx := ofCode_code hfinite
  rw [hcode] at hx
  rw [← hx] at h
  exact h (hzero _)

theorem code_eq_zero_of_beq_zero {x : Float} (h : x == 0) : code x = 0 := by
  obtain ⟨-, -, rfl | ⟨rfl, -⟩ | ⟨rfl, -⟩⟩ := Float.beq_iff_ne_nan_and_eq.mp h
  all_goals decide

end Binary64

namespace Precision

open Calculator.Decimal

/-- Whether no finite double leaves the range of doubles when it is rounded. -/
def KeepsRange (precision : Precision) : Prop :=
  ∀ digits, precision.digits? = some digits → max 1 (min digits 17) ∈ safeDigits

theorem round_cases (precision : Precision) {x : Float} (hfinite : x.isFinite) :
    x == 0 ∧ precision.round x = 0 ∨
      0 < code x ∧ precision.digits? = none ∧ precision.round x = x ∨
      ∃ digits, 0 < code x ∧ precision.digits? = some digits ∧ precision.round x =
        ofCode (isNegative x) (significantCode (max 1 (min digits 17)) (code x)) := by
  by_cases hzero : x == 0
  · refine .inl ⟨hzero, ?_⟩
    unfold round
    split
    · rw [roundToDigits, if_pos hzero]
    · rw [if_pos hzero]
  · right
    have hcode := code_pos_of_ne_zero hfinite hzero
    unfold round
    split
    · rename_i digits hdigits
      refine .inr ⟨digits, hcode, hdigits, ?_⟩
      rw [roundToDigits, if_neg hzero, if_pos hfinite]
    · rename_i hnone
      refine .inl ⟨hcode, hnone, ?_⟩
      rw [if_neg hzero]

theorem clamp_bounds (digits : Nat) : 0 < max 1 (min digits 17) ∧
    max 1 (min digits 17) ≤ 17 := by
  omega

theorem significantCode_le (digits c : Nat) : significantCode digits c ≤ infinityCode :=
  nearestCode_le _ _

theorem round_isNaN_eq_false (precision : Precision) {x : Float}
    (hfinite : x.isFinite) :
    (precision.round x).isNaN = false := by
  apply isNaN_eq_false
  rcases precision.round_cases hfinite with ⟨-, heq⟩ | ⟨-, -, heq⟩ | ⟨digits, -, -, heq⟩
  · rw [heq]
    decide
  · rw [heq]
    exact code_le_of_isFinite hfinite
  · rw [heq, code_ofCode _ (significantCode_le _ _)]
    exact significantCode_le _ _

theorem round_ne_neg_zero (precision : Precision) {x : Float} (hfinite : x.isFinite) :
    precision.round x ≠ -0 := by
  rcases precision.round_cases hfinite with
    ⟨-, heq⟩ | ⟨hcode, -, heq⟩ | ⟨digits, hcode, -, heq⟩
  · rw [heq]
    decide
  · rw [heq]
    exact ne_neg_zero_of_code_pos hcode
  · apply ne_neg_zero_of_code_pos
    rw [heq, code_ofCode _ (significantCode_le _ _)]
    exact significantCode_pos (clamp_bounds digits).1 hcode

theorem isFinite_round {precision : Precision} (h : precision.KeepsRange) {x : Float}
    (hfinite : x.isFinite) : (precision.round x).isFinite := by
  rcases precision.round_cases hfinite with
    ⟨-, heq⟩ | ⟨-, -, heq⟩ | ⟨digits, hcode, hdigits, heq⟩
  · rw [heq]
    decide
  · rw [heq]
    exact hfinite
  · obtain ⟨hpos, hle⟩ := clamp_bounds digits
    rw [heq]
    exact isFinite_ofCode _
      (significantCode_lt_of_mem (h digits hdigits) hpos hle hcode
        ((isFinite_iff x).mp hfinite))

end Precision

theorem isFinite_of_reduce {tokens : List Token} {x : Float}
    (h : (reduce tokens).result = .ok x) :
    x.isFinite := by
  obtain ⟨-, -, -, -, -, hfinite⟩ := exists_passes_of_reduce h
  exact hfinite

/-- The token sequence is evaluated to `r`, with brackets or as a segment. -/
def HasAnswer (precision : Precision) (tokens : List Token) (r : Float) : Prop :=
  (evaluate precision tokens).result = .ok r ∨
  (evaluateSegment precision tokens).result = .ok r

theorem exists_isFinite_of_hasAnswer {precision : Precision} {tokens : List Token}
    {r : Float}
    (h : HasAnswer precision tokens r) : ∃ x, x.isFinite ∧ r = precision.round x := by
  rcases h with h | h
  · rw [evaluate, map_eq_pure_bind] at h
    obtain ⟨x, hx, h⟩ := Outcome.exists_of_result_bind_eq_ok h
    obtain ⟨tree, -, -, hfinite⟩ := Bracket.exists_tree_of_resolve hx
    exact ⟨x, hfinite, (Except.ok.inj h).symm⟩
  · unfold evaluateSegment at h
    split at h
    · contradiction
    · rw [map_eq_pure_bind] at h
      obtain ⟨x, hx, h⟩ := Outcome.exists_of_result_bind_eq_ok h
      exact ⟨x, isFinite_of_reduce hx, (Except.ok.inj h).symm⟩

theorem result_evaluate_number {x : Float} (hfinite : x.isFinite)
    (precision : Precision) :
    (evaluate precision [.number x]).result = .ok (precision.round x) := by
  have hfree : Bracket.BracketFree [.number x] :=
    Bracket.bracketFree_cons.mpr ⟨rfl, Bracket.bracketFree_nil⟩
  rw [result_evaluate, Bracket.resolve_of_bracketFree hfree, reduce_number,
    Outcome.result_ofExcept, checkFinite_eq_ok_iff.mpr ⟨rfl, hfinite⟩]
  rfl

def largestDouble : Float := ofCode false Decimal.largestCode

theorem isFinite_largestDouble : largestDouble.isFinite :=
  isFinite_ofCode false (by decide)

theorem roundToDigits_largestDouble (digits : Nat) :
    roundToDigits digits largestDouble =
      ofCode false (Decimal.significantCode (max 1 (min digits 17)) Decimal.largestCode) := by
  have hzero : ¬ largestDouble == 0 := by decide
  have hsign : isNegative largestDouble = false := isNegative_ofCode false (by decide)
  have hcode : code largestDouble = Decimal.largestCode := code_ofCode false (by decide)
  rw [roundToDigits, if_neg hzero, if_pos isFinite_largestDouble, hsign, hcode]

theorem keepsRange_of_isFinite_round {precision : Precision}
    (h : (precision.round largestDouble).isFinite) : precision.KeepsRange := by
  intro digits hdigits
  obtain ⟨hpos, hle⟩ := Precision.clamp_bounds digits
  rw [Precision.round, hdigits] at h
  change (roundToDigits digits largestDouble).isFinite at h
  rw [roundToDigits_largestDouble, isFinite_iff,
    code_ofCode _ (Precision.significantCode_le _ _)] at h
  exact (Decimal.significantCode_largestCode_lt_iff hpos hle).mp h

/-- An answer is never NaN and never a zero with a sign. Answers are always finite
exactly in the precisions in which the largest double is not rounded up. -/
theorem answer_range (precision : Precision) :
    (∀ tokens r, HasAnswer precision tokens r → r.isNaN = false ∧ r ≠ -0) ∧
      ((∀ tokens r, HasAnswer precision tokens r → r.isFinite) ↔ precision.KeepsRange) := by
  refine ⟨?_, ?_, ?_⟩
  · intro tokens r h
    obtain ⟨x, hfinite, rfl⟩ := exists_isFinite_of_hasAnswer h
    exact ⟨precision.round_isNaN_eq_false hfinite, precision.round_ne_neg_zero hfinite⟩
  · intro h
    exact keepsRange_of_isFinite_round
      (h _ _ (.inl (result_evaluate_number isFinite_largestDouble precision)))
  · intro hkeeps tokens r h
    obtain ⟨x, hfinite, rfl⟩ := exists_isFinite_of_hasAnswer h
    exact Precision.isFinite_round hkeeps hfinite

theorem answer_range_standard :
    Precision.standard.KeepsRange ∧
      HasAnswer .standard [.number largestDouble] (Precision.standard.round largestDouble) ∧
      (Precision.standard.round largestDouble).isNaN = false ∧
      Precision.standard.round largestDouble ≠ -0 ∧
      (Precision.standard.round largestDouble).isFinite := by
  have hkeeps : Precision.standard.KeepsRange := by
    rintro digits ⟨⟩
    decide
  have hanswer : HasAnswer .standard [.number largestDouble]
      (Precision.standard.round largestDouble) :=
    .inl (result_evaluate_number isFinite_largestDouble .standard)
  obtain ⟨hvalue, hrange⟩ := answer_range .standard
  obtain ⟨hnan, hzero⟩ := hvalue _ _ hanswer
  exact ⟨hkeeps, hanswer, hnan, hzero, hrange.mpr hkeeps _ _ hanswer⟩

/-- To three digits, the largest double is rounded to infinity. -/
theorem answer_three_digits_infinite :
    (evaluate ⟨some 3⟩ [.number largestDouble]).result = .ok (1 / 0) ∧
      ¬ (1 / 0 : Float).isFinite := by
  have hcode : Decimal.significantCode 3 Decimal.largestCode = infinityCode := by
    apply Nat.le_antisymm (Precision.significantCode_le _ _)
    apply Nat.le_of_not_lt
    rw [Decimal.significantCode_largestCode_lt_iff (by decide) (by decide)]
    decide
  have hinfinity : ofCode false infinityCode = 1 / 0 := by decide
  have hround : Precision.round ⟨some 3⟩ largestDouble = 1 / 0 := by
    rw [← hinfinity, ← hcode]
    exact roundToDigits_largestDouble 3
  constructor
  · rw [result_evaluate_number isFinite_largestDouble, hround]
  · decide

end Calculator
