import Calculator.Proofs.Reading
import Calculator.Reduction.InPlace

namespace Calculator

theorem result_takeRootTimes (count : Nat) (x : Float) :
    (takeRootTimes count x).result = takeRoots count x := by
  induction count with
  | zero => rfl
  | succ count ih =>
      rw [takeRootTimes_succ, takeRoots, Outcome.result_bind, ih]
      exact congrArg (takeRoots count x >>= ·) (funext result_takeRoot)

namespace InPlace

theorem operandAt_roots (front behind : List Token) (count : Nat) (x : Float) :
    operandAt front.length
        (front ++ (List.replicate count (.operator .root) ++ .number x :: behind)) =
      .ok (rowLeft front (List.replicate count (.operator .root) ++ .number x :: behind)
        ((takeRoots count x).map (·, behind)), takeRootTimes count x) := by
  rw [operandAt_length, operand_roots, operand_eq_takeRootTimes, map_bind]
  exact congrArg (fun outcome => Except.ok (_, outcome)) (bind_pure (takeRootTimes count x))

theorem exists_operandAt (place : Nat) (row : List Token) :
    ∃ left outcome, operandAt place row = .ok (left, outcome) ∧
      ∀ fault, outcome.result = .error fault → left = row := by
  rcases Nat.lt_or_ge row.length place with hplace | hplace
  · -- Behind the end of the row no operand is found.
    have hroots : rootsFrom place row = 0 := by
      rw [rootsFrom, List.drop_eq_nil_of_le (Nat.le_of_lt hplace)]
      rfl
    have hget : row[place + rootsFrom place row]? = none := by
      rw [hroots]
      exact List.getElem?_eq_none (Nat.le_of_lt hplace)
    refine ⟨row, .fail .missingOperandAtEnd, ?_, fun _ _ => rfl⟩
    rw [operandAt, bind_of_pure _ (row_apply row)]
    simp only [hget]
    rfl
  · have hoperand := operandAt_length (row.take place) (row.drop place)
    rw [List.length_take_of_le hplace, List.take_append_drop] at hoperand
    refine ⟨_, _, hoperand, ?_⟩
    intro fault hfault
    rcases hresult : (operand (row.drop place)).result with other | taken
    · exact List.take_append_drop place row
    · rw [map_eq_pure_bind, Outcome.result_bind, hresult] at hfault
      contradiction

theorem exists_combineAt (front behind : List Token) (op : Operation) (count : Nat)
    (x y : Float) :
    ∃ left outcome,
      combineAt (.binary op) (front.length + 1)
          (front ++ .number x :: .operator (.binary op) ::
            (List.replicate count (.operator .root) ++ .number y :: behind)) =
        .ok (left, outcome) ∧
        outcome.result = (takeRoots count y >>= op.apply x).map (fun _ => front.length) ∧
        ∀ value, (takeRoots count y >>= op.apply x) = .ok value →
          left = front ++ .number value :: behind := by
  obtain ⟨left, hrun, hleft⟩ := combineAt_follows front.reverse
    (List.replicate count (.operator .root) ++ .number y :: behind) op x
  rw [List.length_reverse, List.reverse_reverse] at hrun
  have hresult :
      (operand (List.replicate count (.operator .root) ++ .number y :: behind) >>=
      fun taken => combine op x taken.1 >>= fun result =>
        (return ⟨.number result :: front.reverse, taken.2⟩ : Outcome Cursor)).result =
      (takeRoots count y >>= op.apply x).map
        fun value => ⟨.number value :: front.reverse, behind⟩ := by
    rw [Outcome.result_bind, operand_roots]
    rcases takeRoots count y with fault | right
    · rfl
    · change (combine op x right >>= _).result = (op.apply x right).map _
      rw [Outcome.result_bind, result_combine]
      rfl
  refine ⟨left, _, hrun, ?_, ?_⟩
  · rw [map_eq_pure_bind, Outcome.result_bind, hresult]
    rcases (takeRoots count y >>= op.apply x) with fault | value <;> rfl
  · intro value hvalue
    rw [hvalue] at hresult
    rw [hleft _ hresult, Cursor.tokens_cons, List.reverse_reverse]

theorem exists_stepAt (precedence : Nat) {place : Nat} {row : List Token}
    (h : place < row.length) :
    ∃ left outcome, stepAt precedence place row = .ok (left, outcome) := by
  obtain ⟨done, token, behind, rfl, rfl⟩ := exists_split_at h
  obtain ⟨left, hrun, -⟩ := stepAt_follows precedence done behind token
  exact ⟨left, _, hrun⟩

theorem stepAt_ne_rootAsOperation (precedence place : Nat) (row : List Token) :
    stepAt precedence place row ≠ .error .rootAsOperation := by
  rcases Nat.lt_or_ge place row.length with hplace | hplace
  · obtain ⟨left, outcome, hstep⟩ := exists_stepAt precedence hplace
    rw [hstep]
    rintro ⟨⟩
  · have htoken : tokenAt place row = .error .outsideRow := by
      rw [tokenAt, List.getElem?_eq_none hplace]
    rw [stepAt, bind_of_defect _ htoken]
    rintro ⟨⟩

section Passes

variable {precedence : Nat}

theorem passAt_number (done behind : List Token) (x : Float) :
    passAt precedence done.length (done.reverse ++ .number x :: behind) =
      passAt precedence (done.length + 1) (done.reverse ++ .number x :: behind) := by
  have hplace : done.length < (done.reverse ++ .number x :: behind).length := by
    simp
  have hstep : stepAt precedence done.length (done.reverse ++ .number x :: behind) =
      .ok (done.reverse ++ .number x :: behind, return done.length + 1) :=
    bind_of_pure _ (tokenAt_done done behind (.number x))
  exact (passAt_of_lt hplace).trans (bind_of_pure _ hstep)

/-- The rest of a pass in place does what the rest of the pass from a cursor there
does. -/
theorem passAt_follows (cursor : Cursor) :
    Follows (passAt precedence cursor.done.length) cursor.tokens (passFrom precedence cursor)
      (fun _ => ()) id := by
  induction cursor using passFrom.induct precedence with
  | case1 cursor hrest =>
      have htokens : cursor.tokens.length = cursor.done.length := by
        rw [Cursor.tokens, hrest, List.append_nil, List.length_reverse]
      rw [passFrom_of_rest_eq_nil hrest]
      refine follows_pure ?_
      rw [← htokens]
      exact passAt_length precedence cursor.tokens
  | case2 cursor hrest ih =>
      rw [passFrom_of_rest_ne_nil hrest]
      obtain ⟨done, rest⟩ := cursor
      rcases rest with _ | ⟨token, behind⟩
      · exact absurd rfl hrest
      have hplace : done.length < (Cursor.tokens ⟨done, token :: behind⟩).length := by
        simp [Cursor.tokens]
      refine Follows.of_eq ?_ (passAt_of_lt hplace)
      refine (stepAt_follows precedence done behind token).bind fun next hnext => ?_
      have hfollows := ih next hnext
      rcases placeAfter_cases hnext with ⟨heq, -⟩ | ⟨x, before, hdone, heq, -⟩
      · rw [heq]
        exact hfollows
      · -- The place is that of the result of an operation, which the cursor has behind
        -- it already.
        have htokens : next.tokens = before.reverse ++ .number x :: next.rest := by
          rw [← Cursor.tokens_cons, ← hdone]
        rw [hdone, List.length_cons, htokens] at hfollows
        rw [heq, htokens]
        exact hfollows.of_eq (passAt_number before next.rest x)

theorem passAt_start_follows (row : List Token) :
    Follows (passAt precedence 0) row (pass precedence row) (fun _ => ()) id :=
  passAt_follows (.start row)

end Passes

theorem reduceAt_follows (row : List Token) :
    reduceAt.Follows row (reduce row) id fun x => [.number x] := by
  refine (passAt_start_follows row).bind fun powers _ => ?_
  refine (passAt_start_follows powers).bind fun products _ => ?_
  refine (passAt_start_follows products).bind fun sums _ => ?_
  refine follows_of_pure (row_apply sums) ⟨sums, by rw [id_map]; rfl, ?_⟩
  intro x hx
  exact (single_eq_ok_iff.mp hx).1

/-- Operands and operations give way to their values in place, every step of a pass
comes nearer to the end of the row, and the reduction in place ends on every row,
without a defect and as the reduction does. -/
theorem rewrites_in_place :
    (∀ (front behind : List Token) (count : Nat) (x : Float), ∃ left outcome,
      operandAt front.length
          (front ++ (List.replicate count (.operator .root) ++ .number x :: behind)) =
        .ok (left, outcome) ∧ outcome.result = takeRoots count x ∧
        ∀ root, takeRoots count x = .ok root → left = front ++ .number root :: behind) ∧
    (∀ place row, ∃ left outcome, operandAt place row = .ok (left, outcome) ∧
      ∀ fault, outcome.result = .error fault → left = row) ∧
    (∀ (front behind : List Token) (op : Operation) (count : Nat) (x y : Float),
      ∃ left outcome,
      combineAt (.binary op) (front.length + 1)
          (front ++ .number x :: .operator (.binary op) ::
            (List.replicate count (.operator .root) ++ .number y :: behind)) =
        .ok (left, outcome) ∧
        outcome.result = (takeRoots count y >>= op.apply x).map (fun _ => front.length) ∧
        ∀ value, (takeRoots count y >>= op.apply x) = .ok value →
          left = front ++ .number value :: behind) ∧
    (∀ precedence place row, place < row.length → ∃ left outcome,
      stepAt precedence place row = .ok (left, outcome) ∧
        ∀ next, outcome.result = .ok next →
          next ≤ left.length ∧ left.length - next < row.length - place) ∧
    (∀ precedence row, ∃ left,
      passAt precedence 0 row = .ok (left, (fun _ => ()) <$> pass precedence row) ∧
        ∀ after, (pass precedence row).result = .ok after → left = after) ∧
    ∀ row, ∃ left, reduceAt row = .ok (left, reduce row) ∧
      ∀ x, (reduce row).result = .ok x → left = [.number x] := by
  refine ⟨?_, exists_operandAt, exists_combineAt, ?_, ?_, ?_⟩
  · intro front behind count x
    refine ⟨_, _, operandAt_roots front behind count x,
      result_takeRootTimes count x, ?_⟩
    intro root hroot
    rw [hroot]
    rfl
  · intro precedence place row hplace
    obtain ⟨left, outcome, hstep⟩ := exists_stepAt precedence hplace
    exact ⟨left, outcome, hstep, fun next hnext => sub_lt_of_stepAt hplace hstep hnext⟩
  · intro precedence row
    exact passAt_start_follows row
  · intro row
    obtain ⟨left, hrun, hleft⟩ := reduceAt_follows row
    rw [id_map] at hrun
    exact ⟨left, hrun, hleft⟩

/-- In `3+√4+1` the root is taken before the sum in front of it is put in its place,
and the step there comes nearer to the end. -/
theorem rewrites_in_place_sum :
    (∃ outcome, combineAt (.binary .add) 1 [.number 3, .operator (.binary .add),
        .operator .root, .number 4, .operator (.binary .add), .number 1] =
          .ok ([.number 5, .operator (.binary .add), .number 1], outcome) ∧
        outcome.result = .ok 0) ∧
      1 < 6 ∧ ∃ left outcome, stepAt 1 1 [.number 3, .operator (.binary .add),
          .operator .root, .number 4, .operator (.binary .add), .number 1] =
            .ok (left, outcome) ∧
        ∀ next, outcome.result = .ok next → next ≤ left.length ∧
        left.length - next < 5 := by
  obtain ⟨-, -, hcombine, hstep, -⟩ := rewrites_in_place
  have hvalue : (takeRoots 1 4 >>= Operation.add.apply 3) = .ok 5 := by
    have hroot : squareRoot 4 = .ok 2 :=
      squareRoot_eq_ok_iff.mpr ⟨by decide, by decide +kernel, by decide +kernel⟩
    change (squareRoot 4 >>= Operation.add.apply 3) = _
    rw [hroot]
    change Operation.add.apply 3 2 = _
    exact apply_eq_ok_iff.mpr ⟨by decide, by decide +kernel, by decide +kernel⟩
  refine ⟨?_, by decide, hstep 1 1 _ (by decide)⟩
  obtain ⟨left, outcome, hrun, hresult, hleft⟩ :=
    hcombine [] [.operator (.binary .add), .number 1] .add 1 3 4
  rw [hvalue] at hresult
  rw [hleft 5 hvalue] at hrun
  exact ⟨outcome, hrun, hresult⟩

end InPlace

end Calculator
