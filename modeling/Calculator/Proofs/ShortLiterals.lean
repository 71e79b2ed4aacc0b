import Calculator.Proofs.FinalRounding
import Calculator.Proofs.Lexemes
import Calculator.Proofs.Retyping
import Calculator.Proofs.SignedRounding

namespace Calculator

open Calculator.Binary64

namespace Decimal

open Calculator.Rounding

/-- A number with at most so many digits up to the last one that is not zero. -/
def Short (digits n : Nat) : Prop :=
  ∃ significand place, significand < powerOfTen digits ∧
  n = significand * powerOfTen place

section

variable {digits n c : Nat}

theorem keepDigits_of_short (h : Short digits n) : keepDigits digits n = n := by
  rcases Nat.eq_zero_or_pos n with rfl | hn
  · exact keepDigits_of_dvd (Nat.dvd_zero _)
  · obtain ⟨significand, place, hsignificand, heq⟩ := h
    have hupper : n < powerOfTen (digits + place) := by
      rw [heq, powerOfTen_add]
      exact Nat.mul_lt_mul_of_pos_right hsignificand (powerOfTen_pos place)
    have hcount :=
      powerOfTen_lt_iff.mp (Nat.lt_of_le_of_lt (powerOfTen_digitCount_le hn) hupper)
    have hplace : powerOfTen (digitCount n - digits) ∣ powerOfTen place :=
      Nat.pow_dvd_pow 10 (by omega)
    apply keepDigits_of_dvd
    exact heq ▸ Nat.dvd_mul_left_of_dvd hplace significand

/-- Where a magnitude is rounded down and a decimal of as many digits, to
which it is the nearest magnitude, lies above it, the gap below the magnitude
equals the one above. -/
theorem gap_eq_of_keepDigits_lt (hfifteen : digits ≤ 15) (hc : c + 1 < infinityCode)
    (hcode : codeOfSteps n = c + 1) (hcount : digitCount n = digitCount (steps (c + 1)))
    (hkept : keepDigits digits n = n)
    (hbelow : keepDigits digits (steps (c + 1)) < steps (c + 1))
    (habove : steps (c + 1) ≤ n)
    (hdist : steps (c + 1) - keepDigits digits (steps (c + 1)) ≤ n - steps (c + 1)) :
    gap (c + 1) = gap c := by
  rcases gap_succ_cases c with hgap | ⟨hgap, hunits⟩
  · exact hgap
  · exfalso
    have hlong := lt_digitCount_of_keepDigits_ne (Nat.ne_of_lt hbelow)
    have hpower := powerOfTen_eq_mul (Nat.le_of_lt hlong)
    have hupper := lt_powerOfTen_digitCount (steps (c + 1))
    have hcoarse :=
      Nat.mul_le_mul_left (powerOfTen (digitCount (steps (c + 1)) - digits))
      (powerOfTen_le hfifteen)
    have hfifteenth : powerOfTen 15 = 1000000000000000 := rfl
    rw [← hpower, hfifteenth] at hcoarse
    have hapart : keepDigits digits (steps (c + 1)) +
        powerOfTen (digitCount (steps (c + 1)) - digits) ≤ n := by
      have hlt : keepDigits digits (steps (c + 1)) < keepDigits digits n := by
        rw [hkept]
        exact Nat.lt_of_lt_of_le hbelow habove
      have hle := keepDigits_add_le hcount.symm hlt
      rwa [hkept, hcount] at hle
    have hmiddle := mt (lt_codeOfSteps_iff (n := n) hc).mpr (by omega)
    obtain ⟨hpos, hhere, hnext⟩ := steps_of_gap_double hgap hunits
    -- A unit of the last digit fits between the two decimals, so it is at most twice the
    -- gap below. Fifteen digits reach no more than 2 * 10 ^ 15 of these gaps; the
    -- magnitude is 2 ^ 53 of them.
    omega

/-- A magnitude as long as a decimal that is nearest to it is rounded to something
that it is nearest to as well. -/
theorem significantCode_of_digitCount_eq (hfifteen : digits ≤ 15) (hpos : 0 < c)
    (hc : c < infinityCode) (hcode : codeOfSteps n = c)
    (hkept : keepDigits digits n = n)
    (hcount : digitCount n = digitCount (steps c)) : significantCode digits c = c := by
  have hexact := codeOfSteps_steps (Nat.le_of_lt hc)
  have hdist := dist_keepDigits_le hcount hkept
  rw [significantCode]
  -- On the decimal's side of the magnitude the rounded one lies between the two; on the
  -- other side it is the reflection that counts, and there the gaps may differ.
  rcases Nat.lt_or_ge n (steps c) with hn | hn
  · rw [Nat.dist_eq_sub_of_le_right (Nat.le_of_lt hn)] at hdist
    rcases Nat.le_total (keepDigits digits (steps c)) (steps c) with hbelow | habove
    · rw [Nat.dist_eq_sub_of_le_right hbelow] at hdist
      exact codeOfSteps_of_between hcode hexact (by omega) hbelow
    · rw [Nat.dist_eq_sub_of_le habove] at hdist
      exact codeOfSteps_of_reflected_above hc hcode hn habove hdist
  · rw [Nat.dist_eq_sub_of_le hn] at hdist
    rcases Nat.lt_or_ge (keepDigits digits (steps c)) (steps c) with hbelow | habove
    · rw [Nat.dist_eq_sub_of_le_right (Nat.le_of_lt hbelow)] at hdist
      obtain ⟨c, rfl⟩ := Nat.exists_eq_add_one.mpr hpos
      have hgap := gap_eq_of_keepDigits_lt hfifteen hc hcode hcount hkept hbelow hn hdist
      exact codeOfSteps_of_reflected_below hc hgap hcode (Nat.le_of_lt hbelow) hn hdist
    · rw [Nat.dist_eq_sub_of_le habove] at hdist
      exact codeOfSteps_of_between hexact hcode habove (by omega)

theorem significantCode_of_short (hdigits : 0 < digits) (hfifteen : digits ≤ 15)
    (hpos : 0 < c)
    (hc : c < infinityCode) (hshort : Short digits n) (hcode : codeOfSteps n = c) :
    significantCode digits c = c := by
  have hkept := keepDigits_of_short hshort
  have hcodeKept : codeOfSteps (keepDigits digits n) = c := by rw [hkept, hcode]
  rcases Nat.lt_trichotomy (digitCount n) (digitCount (steps c)) with hlt | heq | hgt
  · exact significantCode_of_digitCount_lt hdigits hpos hc hcodeKept hlt
  · exact significantCode_of_digitCount_eq hfifteen hpos hc hcode hkept heq
  · have hn : 0 < n := by
      apply Nat.pos_of_ne_zero
      rintro rfl
      rw [← steps_zero, codeOfSteps_steps (Nat.zero_le _)] at hcode
      exact Nat.ne_of_lt hpos hcode
    exact significantCode_of_digitCount_gt hdigits hn hpos hc hcodeKept hgt

end

theorem code_eq_zero {d : Decimal}
    (h : 2 * (d.coefficient <<< unitExponent) ≤ powerOfTen d.places) : d.code = 0 := by
  apply Nat.eq_zero_of_not_pos
  have hone : units 1 = 1 := units_of_lt (by decide)
  rw [code, lt_nearestCode_iff (powerOfTen_pos _) (by decide), units_zero, hone]
  omega

theorem code_cases_of_short {digits : Nat} {d : Decimal} (hfifteen : digits ≤ 15)
    (hshort : Short digits d.coefficient) :
    d.code = 0 ∨ ∃ n, Short digits n ∧ codeOfSteps n = d.code := by
  obtain ⟨significand, place, hsignificand, hcoefficient⟩ := hshort
  by_cases hplaces : d.places ≤ unitExponent + place
  · refine .inr ⟨significand * powerOfTen (unitExponent + place - d.places),
      ⟨significand, _, hsignificand, rfl⟩, (code_eq_codeOfSteps ?_).symm⟩
    have hpower : powerOfTen (unitExponent + place - d.places) * powerOfTen d.places =
        powerOfTen place * powerOfTen unitExponent := by
      rw [← powerOfTen_add, Nat.sub_add_cancel hplaces, powerOfTen_add, Nat.mul_comm]
    rw [hcoefficient, Nat.mul_assoc, Nat.mul_assoc, hpower]
  · left
    have hsmall : powerOfTen 15 * 2 ^ (unitExponent + 1) ≤ powerOfTen (unitExponent + 1) := by
      decide +kernel
    apply code_eq_zero
    calc 2 * (d.coefficient <<< unitExponent)
        = significand * 2 ^ (unitExponent + 1) * powerOfTen place := by
          rw [hcoefficient, Nat.shiftLeft_eq, Nat.pow_succ]
          ring
      _ ≤ powerOfTen 15 * 2 ^ (unitExponent + 1) * powerOfTen place := by
          refine Nat.mul_le_mul_right _ (Nat.mul_le_mul_right _ ?_)
          exact Nat.le_trans (Nat.le_of_lt hsignificand) (powerOfTen_le hfifteen)
      _ ≤ powerOfTen (unitExponent + 1) * powerOfTen place := Nat.mul_le_mul_right _ hsmall
      _ = powerOfTen (unitExponent + 1 + place) := (powerOfTen_add _ _).symm
      _ ≤ powerOfTen d.places := powerOfTen_le (by omega)

theorem significantCode_code_of_short {digits : Nat} {d : Decimal}
    (hdigits : 0 < digits)
    (hfifteen : digits ≤ 15) (hshort : Short digits d.coefficient)
    (hfinite : d.code < infinityCode) : significantCode digits d.code = d.code := by
  rcases Nat.eq_zero_or_pos d.code with hzero | hpos
  · rw [hzero, significantCode_zero]
  · rcases code_cases_of_short hfifteen hshort with hzero | ⟨n, hn, hcode⟩
    · exact absurd hzero (Nat.ne_of_gt hpos)
    · exact significantCode_of_short hdigits hfifteen hpos hfinite hn hcode

end Decimal

theorem roundToDigits_beq_self {digits : Nat} {x : Float} (hfinite : x.isFinite)
    (h : Decimal.significantCode (max 1 (min digits 17)) (code x) = code x) :
    roundToDigits digits x == x := by
  by_cases hzero : x == 0
  · have hzeros : ∀ negative, (0 : Float) == ofCode negative 0 := by decide
    have hx := ofCode_code hfinite
    rw [beq_zero_iff.mp hzero] at hx
    rw [roundToDigits_of_beq_zero hzero, ← hx]
    exact hzeros _
  · rw [roundToDigits, if_neg hzero, if_pos hfinite, h, ofCode_code hfinite]
    exact beq_self_of_isFinite hfinite

namespace Lexer

open Calculator.Text

theorem tokens_of_lex {text : List Char} {sequence : List Token}
    (h : (lex text).1 = .ok sequence) : (tokens text).1 = .ok sequence := by
  unfold lex at h
  split at h
  · contradiction
  · exact h

theorem lex_of_tokens {text : List Char} {sequence : List Token} (hne : sequence ≠ [])
    (h : (tokens text).1 = .ok sequence) : (lex text).1 = .ok sequence := by
  unfold lex
  split
  · rename_i behind hempty
    rw [hempty] at h
    exact absurd (Except.ok.inj h).symm hne
  · exact h

theorem lex_sign {sign : Char} {text : List Char} {sequence : List Token}
    (hsign : sign ∈ ['-', '−']) (h : (lex text).1 = .ok sequence) :
    (lex (sign :: text)).1 = .ok (.operator (.binary .sub) :: sequence) := by
  have hrest : tokens text = (.ok sequence, (tokens text).2) :=
    Prod.ext (tokens_of_lex h) rfl
  apply lex_of_tokens (List.cons_ne_nil _ _)
  rcases List.mem_pair.mp hsign with rfl | rfl
  · rw [tokens_symbol (by decide) (by decide) rfl hrest]
  · rw [tokens_symbol (by decide) (by decide) rfl hrest]

theorem number_of_lex {text : List Char} {literal : Literal} {x : Float}
    (hread : Literal.read text = (literal, [])) (h : (lex text).1 = .ok [.number x]) :
    number literal = .ok (.number x) := by
  have hchars := Literal.chars_append_of_read hread
  rw [List.append_nil] at hchars
  cases text with
  | nil =>
      rw [lex, tokens] at h
      contradiction
  | cons c rest =>
      have hpart : Literal.isPart c := by
        apply Literal.isPart_of_mem_chars (Literal.longest_of_read hread)
        rw [hchars]
        exact List.mem_cons_self
      have hblank := Lexeme.isBlank_of_isPart hpart
      have htoken : token c rest =
          (number literal, []) := by rw [token, if_pos hpart, hread]
      have htokens := tokens_of_lex h
      rcases hnumber : number literal with fault | first
      · rw [hnumber] at htoken
        rw [tokens_of_fault hblank htoken] at htokens
        contradiction
      · rw [hnumber] at htoken
        rw [tokens_of_token hblank htoken, tokens] at htokens
        obtain ⟨rfl⟩ := Except.ok.inj htokens
        rfl

end Lexer

theorem Expression.exists_parse_of_tokenize {text : String} {x : Float}
    (hfinite : x.isFinite)
    (h : (tokenize text).result = .ok [.number x]) (precision : Precision) :
    ∃ expression, (parse text).result = .ok expression ∧
      (expression.evaluate precision).result = .ok (precision.round x) :=
  ⟨number x, parse_eq_ok.mpr h, result_evaluate_number hfinite precision⟩

/-- A literal of at most fifteen digits stands for a double that rounding to as many
digits does not change. So the literal by itself, or with a sign in front of it, has
its own value as the answer. -/
theorem literal_kept {digits : Nat} (hdigits : 1 ≤ digits) (hfifteen : digits ≤ 15)
    {text : String}
    {literal : Literal} {x : Float} (hread : Literal.read text.toList = (literal, []))
    (hlex : (Lexer.lex text.toList).1 = .ok [.number x])
    (hshort : Decimal.Short digits literal.decimal.coefficient) :
    roundToDigits digits x == x ∧
      (∃ expression r, (Expression.parse text).result = .ok expression ∧
        (expression.evaluate ⟨some digits⟩).result = .ok r ∧ r == x) ∧
      ∀ sign ∈ ['-', '−'], ∃ expression r,
        (Expression.parse (String.ofList (sign :: text.toList))).result = .ok expression ∧
        (expression.evaluate ⟨some digits⟩).result = .ok r ∧ r == -x := by
  obtain ⟨htoken, hnumber⟩ := Lexer.number_eq_ok (Lexer.number_of_lex hread hlex)
  have hx : x = literal.decimal.toFloat := Token.number.inj htoken
  have hfinite : x.isFinite := hx ▸ hnumber
  have hclamp : max 1 (min digits 17) = digits := by omega
  have hcode : code x = literal.decimal.code := by
    have hle : literal.decimal.code ≤ infinityCode := nearestCode_le _ _
    rw [hx, Decimal.toFloat, code_ofCode false hle]
  have hkept : Decimal.significantCode (max 1 (min digits 17)) (code x) = code x := by
    rw [hclamp, hcode]
    exact Decimal.significantCode_code_of_short hdigits hfifteen hshort
      (hcode ▸ (isFinite_iff x).mp hfinite)
  have hround := roundToDigits_beq_self hfinite hkept
  have hroundNeg : roundToDigits digits (-x) == -x :=
    roundToDigits_beq_self (isFinite_neg hfinite) (by rw [code_neg hfinite, hkept])
  refine ⟨hround, ?_, ?_⟩
  · have htokens : (tokenize text).result = .ok [.number x] := by
      rw [result_tokenize, hlex]
      rfl
    obtain ⟨expression, hparse, hvalue⟩ :=
      Expression.exists_parse_of_tokenize hfinite htokens ⟨some digits⟩
    exact ⟨expression, _, hparse, hvalue, hround⟩
  · intro sign hsign
    have htokens : (tokenize (String.ofList (sign :: text.toList))).result =
        .ok [.number (-x)] := by
      rw [result_tokenize, String.toList_ofList, Lexer.lex_sign hsign hlex]
      rfl
    obtain ⟨expression, hparse, hvalue⟩ :=
      Expression.exists_parse_of_tokenize (isFinite_neg hfinite) htokens ⟨some digits⟩
    exact ⟨expression, _, hparse, hvalue, hroundNeg⟩

/-- One digit is enough for a tenth, which no double is exactly. -/
theorem literal_kept_tenth :
    roundToDigits 1 0.1 == 0.1 ∧
      ∃ expression r, (Expression.parse "-0.1").result = .ok expression ∧
        (expression.evaluate ⟨some 1⟩).result = .ok r ∧ r == -0.1 := by
  have hread : Literal.read "0.1".toList = (⟨['0'], some ['1']⟩, []) := by decide
  have hlex : (Lexer.lex "0.1".toList).1 = .ok [.number 0.1] := by
    have hvalue : Decimal.toFloat ⟨1, 1⟩ = 0.1 := by decide +kernel
    have hfinite : (Decimal.toFloat ⟨1, 1⟩).isFinite := by decide +kernel
    have hchars : Decimal.chars ⟨1, 1⟩ ++ [] = "0.1".toList := by decide +kernel
    have hends : Literal.endsBefore [] := fun c hc => absurd hc (Option.not_mem_none c)
    have hnone : Lexer.tokens [] = (.ok [], []) := Lexer.tokens.eq_1
    have htokens := Lexer.tokens_decimal hfinite hends hnone
    rw [hchars, hvalue] at htokens
    apply Lexer.lex_of_tokens (List.cons_ne_nil _ _)
    rw [htokens]
  have hshort : Decimal.Short 1 (Literal.decimal ⟨['0'], some ['1']⟩).coefficient :=
    ⟨1, 0, by decide, by decide⟩
  obtain ⟨hround, -, hsigned⟩ := literal_kept (by decide) (by decide) hread hlex hshort
  exact ⟨hround, hsigned '-' List.mem_cons_self⟩

end Calculator
