import Calculator.Proofs.Range
import Calculator.Proofs.RoundTrip
import Calculator.Proofs.RoundingTwice

namespace Calculator

open Calculator.Binary64

theorem clean_number {x : Float} (hfinite : x.isFinite) : Clean [.number x] := by
  rw [Shorthand.clean_iff]
  refine ⟨List.cons_ne_nil _ _, ?_, ⟨?_, ?_, ?_⟩, trivial⟩
  · intro y hy
    rw [List.mem_singleton] at hy
    rw [Token.number.inj hy]
    exact hfinite
  · exact Bool.false_ne_true
  · rintro y z ⟨⟩
  · rintro y after ⟨⟩

def Expression.number (x : Float) : Expression :=
  ⟨[.number x], rfl, rfl⟩

theorem Expression.result_parse_numberText {x : Float} (hfinite : x.isFinite) :
    (Expression.parse (numberText x)).result = .ok (Expression.number x) := by
  have htext : numberText x = Token.written (Expression.number x).tokens := rfl
  rw [parse_eq_ok, htext]
  exact result_tokenize_written (clean_number hfinite)

theorem Expression.result_evaluate_number {x : Float} (hfinite : x.isFinite)
    (precision : Precision) :
    ((Expression.number x).evaluate precision).result = .ok (precision.round x) :=
  Calculator.result_evaluate_number hfinite precision

namespace Precision

theorem round_round (precision : Precision) {x : Float} (hfinite : x.isFinite)
    (hround : (precision.round x).isFinite) :
    precision.round (precision.round x) = precision.round x := by
  rcases precision.round_cases hfinite with
    ⟨-, heq⟩ | ⟨-, -, heq⟩ | ⟨digits, hcode, hdigits, heq⟩
  · rw [heq]
    unfold round
    split <;> rfl
  · rw [heq, heq]
  · have hle := significantCode_le (max 1 (min digits 17)) (code x)
    have hpos := Decimal.significantCode_pos (clamp_bounds digits).1 hcode
    rw [heq, isFinite_iff, code_ofCode _ hle] at hround
    have hnonzero : ¬ ofCode (isNegative x)
        (Decimal.significantCode (max 1 (min digits 17)) (code x)) == 0 := by
      intro hzero
      have hnone := code_eq_zero_of_beq_zero hzero
      rw [code_ofCode _ hle] at hnone
      omega
    rw [heq, round, hdigits]
    dsimp only
    rw [roundToDigits, if_neg hnonzero, if_pos (isFinite_ofCode _ hround),
      code_ofCode _ hle, isNegative_ofCode _ hle,
      Decimal.significantCode_significantCode (clamp_bounds digits).1 hcode hround]

theorem keepsRange_standard : standard.KeepsRange := by
  rintro digits ⟨⟩
  decide

end Precision

theorem Expression.exists_parse_numberText {precision : Precision}
    {expression : Expression}
    {r : Float} (h : (expression.evaluate precision).result = .ok r)
    (hfinite : r.isFinite) :
    ∃ again, (Expression.parse (numberText r)).result = .ok again ∧
      (again.evaluate precision).result = .ok r := by
  obtain ⟨x, hx, rfl⟩ := exists_isFinite_of_hasAnswer (.inl h)
  refine ⟨number (precision.round x), result_parse_numberText hfinite, ?_⟩
  rw [result_evaluate_number hfinite, precision.round_round hx hfinite]

/-- An answer can be typed in again: its text is read as an expression with the same
answer in the same precision. In the standard precision all answers are finite, so
this holds of all of them. -/
theorem answer_typed_again :
    (∀ text expression precision r, (Expression.parse text).result = .ok expression →
      (expression.evaluate precision).result = .ok r → r.isFinite →
        ∃ again, (Expression.parse (numberText r)).result = .ok again ∧
          (again.evaluate precision).result = .ok r) ∧
    ∀ text r, (calculate text).result = .ok r →
      r.isFinite ∧ (calculate (numberText r)).result = .ok r := by
  constructor
  · intro text expression precision r _ hvalue hfinite
    exact Expression.exists_parse_numberText hvalue hfinite
  · intro text r h
    obtain ⟨expression, -, hvalue⟩ := Outcome.exists_of_result_bind_eq_ok h
    obtain ⟨x, hx, hr⟩ := exists_isFinite_of_hasAnswer (.inl hvalue)
    have hfinite : r.isFinite :=
      hr ▸ Precision.isFinite_round Precision.keepsRange_standard hx
    obtain ⟨again, hagain, hsame⟩ := Expression.exists_parse_numberText hvalue hfinite
    refine ⟨hfinite, ?_⟩
    rw [calculate, Outcome.result_bind_of_ok _ hagain]
    exact hsame

theorem answer_typed_again_largestDouble :
    ∃ expression, (Expression.parse (numberText largestDouble)).result = .ok expression ∧
      (expression.evaluate .standard).result = .ok (Precision.standard.round largestDouble) ∧
      (Precision.standard.round largestDouble).isFinite ∧
      (∃ again,
        (Expression.parse (numberText (Precision.standard.round largestDouble))).result =
          .ok again ∧
        (again.evaluate .standard).result = .ok (Precision.standard.round largestDouble)) ∧
      (calculate (numberText (Precision.standard.round largestDouble))).result =
        .ok (Precision.standard.round largestDouble) := by
  have hparse := Expression.result_parse_numberText isFinite_largestDouble
  have hvalue := Expression.result_evaluate_number isFinite_largestDouble .standard
  have hcalculate : (calculate (numberText largestDouble)).result =
      .ok (Precision.standard.round largestDouble) := by
    rw [calculate, Outcome.result_bind_of_ok _ hparse]
    exact hvalue
  obtain ⟨hfinite, hagain⟩ := answer_typed_again.2 _ _ hcalculate
  exact ⟨_, hparse, hvalue, hfinite, answer_typed_again.1 _ _ _ _ hparse hvalue hfinite,
    hagain⟩

end Calculator
