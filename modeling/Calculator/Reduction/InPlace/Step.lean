import Calculator.Reduction.Cursor
import Calculator.Reduction.InPlace.Operand

namespace Calculator.InPlace

/-- The left operand of an operation at a place. -/
def numberBefore (op : Operation) : (place : Nat) → InPlace Float
  | 0 => fail (.missingOperandBefore op)
  | before + 1 => do
      match ← tokenAt before with
      | .number x => return x
      | _ => fail (.missingOperandBefore op)

/-- Carries out the operator at a place between its two operands. Returns the
place to go on from. -/
def combineAt : (op : Operator) → (place : Nat) → InPlace Nat
  | .root, _ => defect .rootAsOperation
  | .binary op, place => do
      let left ← numberBefore op place
      let right ← operandAt (place + 1)
      let result ← ofOutcome (combine op left right)
      takeOut place (place + 1)
      let before ← placeBefore place
      put before (.number result)
      return before

/-- The step of the pass for a precedence at an operator. Returns the place of the
next step. -/
def operatorAt (precedence : Nat) (op : Operator) (place : Nat) : InPlace Nat :=
  if op = .root ∧ op.precedence = precedence then do
    let _ ← operandAt place
    return place + 1
  else if op.precedence = precedence then combineAt op place
  else return place + 1

/-- One step of the pass for a precedence, at a place. Returns the place of the next
one. -/
def stepAt (precedence place : Nat) : InPlace Nat := do
  match ← tokenAt place with
  | .operator op => operatorAt precedence op place
  | _ => return place + 1

/-- The place that a step at a place goes on from. Behind an operation that was
carried out it is the place of the result, and else the next one. -/
def placeAfter (precedence place : Nat) : Token → Nat
  | .operator (.binary op) => if op.precedence = precedence then place - 1 else place + 1
  | _ => place + 1

section Steps

variable {precedence : Nat} (done behind : List Token)

theorem tokenAt_done (token : Token) :
    tokenAt done.length (done.reverse ++ token :: behind) =
      .ok (done.reverse ++ token :: behind, return token) := by
  have htoken := tokenAt_length done.reverse behind token
  rwa [List.length_reverse] at htoken

theorem passed_follows (token : Token) :
    (pure (done.length + 1) : InPlace Nat).Follows (done.reverse ++ token :: behind)
      (return ⟨token :: done, behind⟩) (fun _ : Cursor => done.length + 1) Cursor.tokens := by
  refine follows_pure ?_
  rw [Cursor.tokens_cons]
  rfl

theorem operandAt_follows (rest : List Token) :
    (operandAt done.length).Follows (done.reverse ++ rest) (operand rest) Prod.fst
      fun taken => done.reverse ++ .number taken.1 :: taken.2 := by
  have hoperand := operandAt_length done.reverse rest
  rw [List.length_reverse] at hoperand
  refine ⟨_, hoperand, ?_⟩
  intro taken htaken
  rw [htaken]
  rfl

theorem combineAt_follows (op : Operation) (x : Float) :
    (combineAt (.binary op) (done.length + 1)).Follows
      (done.reverse ++ .number x :: .operator (.binary op) :: behind)
      (operand behind >>= fun taken => combine op x taken.1 >>= fun result =>
        return ⟨.number result :: done, taken.2⟩)
      (fun _ => done.length) Cursor.tokens := by
  have hleft : numberBefore op (done.length + 1)
      (done.reverse ++ .number x :: .operator (.binary op) :: behind) =
        .ok (done.reverse ++ .number x :: .operator (.binary op) :: behind, return x) := by
    rw [numberBefore, bind_of_pure _ (tokenAt_done done _ (.number x))]
    rfl
  have hright := operandAt_follows (.operator (.binary op) :: .number x :: done) behind
  rw [List.reverse_cons, List.reverse_cons, List.append_assoc,
    List.append_assoc] at hright
  refine follows_of_pure hleft (hright.bind fun taken _ => ?_)
  refine (follows_ofOutcome (combine op x taken.1)).bind fun result _ => ?_
  -- The operation and its right operand are taken out, and the result is put in the
  -- place of the left one.
  have hlast : done.length + 1 + 1 + 1 =
      (done.reverse ++ [Token.number x]).length +
        [Token.operator (.binary op), Token.number taken.1].length := by
    simp
  have htake := takeOut_length (done.reverse ++ [.number x]) taken.2 hlast (by simp)
  have hput := put_length done.reverse taken.2 (.number x) (.number result)
  rw [List.length_append, List.length_reverse, List.append_assoc,
    List.append_assoc] at htake
  rw [List.length_reverse] at hput
  rw [List.append_assoc, List.append_assoc]
  refine follows_of_pure htake (follows_of_pure (y := done.length) rfl ?_)
  refine follows_of_pure hput (follows_pure ?_)
  rw [Cursor.tokens_cons]
  rfl

theorem numberBefore_missing (op : Operation)
    (h : ∀ x before, done ≠ .number x :: before) :
    numberBefore op done.length (done.reverse ++ behind) =
      .ok (done.reverse ++ behind, .fail (.missingOperandBefore op)) := by
  rcases done with _ | ⟨token, before⟩
  · rfl
  · have htoken := tokenAt_done before behind token
    rw [List.reverse_cons, List.append_assoc, List.length_cons, numberBefore]
    refine (bind_of_pure _ htoken).trans ?_
    rcases token with x | other | _ | _
    · exact absurd rfl (h x before)
    · rfl
    · rfl
    · rfl

theorem operatorAt_passed {op : Operator} (h : op.precedence ≠ precedence) :
    (operatorAt precedence op done.length).Follows (done.reverse ++ .operator op :: behind)
      (Cursor.step precedence ⟨done, .operator op :: behind⟩)
      (fun _ => done.length + 1) Cursor.tokens := by
  have hstep : Cursor.step precedence ⟨done, .operator op :: behind⟩ =
      return ⟨.operator op :: done, behind⟩ := by
    rcases op with op | _
    · exact if_neg h
    · exact if_neg h
  rw [operatorAt, if_neg fun hroot => h hroot.2, if_neg h, hstep]
  exact passed_follows done behind (.operator op)

theorem operatorAt_binary {op : Operation} (h : op.precedence = precedence) :
    (operatorAt precedence (.binary op) done.length).Follows
      (done.reverse ++ .operator (.binary op) :: behind)
      (Cursor.step precedence ⟨done, .operator (.binary op) :: behind⟩)
      (fun _ => done.length - 1) Cursor.tokens := by
  have hneither :
      ¬ (Operator.binary op = .root ∧ (Operator.binary op).precedence = precedence) :=
    fun hroot => Operator.noConfusion hroot.1
  rw [operatorAt, if_neg hneither,
    if_pos (show (Operator.binary op).precedence = _ from h)]
  unfold Cursor.step
  simp only [h, if_true]
  split
  · rename_i x before
    have hcombine := combineAt_follows before behind op x
    rw [List.reverse_cons, List.append_assoc]
    exact hcombine
  · rename_i hmissing
    have hleft := numberBefore_missing done (.operator (.binary op) :: behind) op
      fun x before => hmissing x before
    exact follows_fail (bind_of_error _ hleft rfl) _ _

theorem operatorAt_root (h : Operator.root.precedence = precedence) :
    (operatorAt precedence .root done.length).Follows
      (done.reverse ++ .operator .root :: behind)
      (Cursor.step precedence ⟨done, .operator .root :: behind⟩)
      (fun _ => done.length + 1) Cursor.tokens := by
  rw [operatorAt, if_pos ⟨rfl, h⟩]
  unfold Cursor.step
  simp only [h, if_true]
  refine (operandAt_follows done (.operator .root :: behind)).bind fun taken _ => ?_
  exact passed_follows done taken.2 (.number taken.1)

end Steps

theorem stepAt_follows (precedence : Nat) (done behind : List Token) (token : Token) :
    (stepAt precedence done.length).Follows (done.reverse ++ token :: behind)
      (Cursor.step precedence ⟨done, token :: behind⟩)
      (fun _ => placeAfter precedence done.length token) Cursor.tokens := by
  refine follows_of_pure (tokenAt_done done behind token) ?_
  rcases token with x | op | _ | _
  · exact passed_follows done behind _
  · by_cases hprecedence : op.precedence = precedence
    · rcases op with op | _
      · have hplace : placeAfter precedence done.length (.operator (.binary op)) =
            done.length - 1 := if_pos hprecedence
        rw [hplace]
        exact operatorAt_binary done behind hprecedence
      · exact operatorAt_root done behind hprecedence
    · have hplace : placeAfter precedence done.length (.operator op) =
          done.length + 1 := by
        rcases op with op | _
        · exact if_neg hprecedence
        · rfl
      rw [hplace]
      exact operatorAt_passed done behind hprecedence
  · exact passed_follows done behind _
  · exact passed_follows done behind _

section Progress

variable {precedence : Nat} {token : Token} {done behind : List Token}

/-- A step goes on from the place of the cursor, or from the number in front of it,
which is the result of an operation and is passed over next. -/
theorem placeAfter_cases {next : Cursor}
    (h : (Cursor.step precedence ⟨done, token :: behind⟩).result = .ok next) :
    (placeAfter precedence done.length token = next.done.length ∧
        next.rest.length ≤ behind.length) ∨
      ∃ x before, next.done = .number x :: before ∧
        placeAfter precedence done.length token = before.length ∧
        next.rest.length < behind.length := by
  have hshorter :=
    Nat.le_of_lt_succ (Cursor.length_rest_lt_of_step (List.cons_ne_nil _ _) h)
  unfold Cursor.step at h
  split at h
  · rename_i heq
    exact absurd heq (List.cons_ne_nil _ _)
  · rename_i rest heq
    obtain ⟨rfl, rfl⟩ := List.cons.inj heq
    split at h
    · obtain ⟨⟨x, after⟩, -, h⟩ := Outcome.exists_of_result_bind_eq_ok h
      obtain rfl := Except.ok.inj h
      exact .inl ⟨rfl, hshorter⟩
    · obtain rfl := Except.ok.inj h
      exact .inl ⟨rfl, hshorter⟩
  · rename_i op rest heq
    obtain ⟨rfl, rfl⟩ := List.cons.inj heq
    split at h
    · rename_i hprecedence
      split at h
      · rename_i left before hdone
        obtain rfl : done = .number left :: before := hdone
        obtain ⟨⟨right, after⟩, hoperand, h⟩ := Outcome.exists_of_result_bind_eq_ok h
        obtain ⟨result, -, h⟩ := Outcome.exists_of_result_bind_eq_ok h
        obtain rfl := Except.ok.inj h
        refine .inr ⟨result, before, rfl, ?_, length_lt_of_operand hoperand⟩
        exact if_pos hprecedence
      · nomatch h
    · rename_i hprecedence
      obtain rfl := Except.ok.inj h
      exact .inl ⟨if_neg hprecedence, hshorter⟩
  · rename_i token' rest hroot hbinary heq
    obtain ⟨rfl, rfl⟩ := List.cons.inj heq
    obtain rfl := Except.ok.inj h
    refine .inl ⟨?_, hshorter⟩
    unfold placeAfter
    split
    · exact absurd rfl (hbinary _)
    · rfl

theorem exists_split_at {place : Nat} {row : List Token} (h : place < row.length) :
    ∃ done token behind, row = List.reverse done ++ token :: behind ∧
    done.length = place := by
  refine ⟨(row.take place).reverse, row[place], row.drop (place + 1), ?_, ?_⟩
  · rw [List.reverse_reverse, List.getElem_cons_drop, List.take_append_drop]
  · rw [List.length_reverse, List.length_take_of_le (Nat.le_of_lt h)]

theorem sub_lt_of_stepAt {place next : Nat} {row left : List Token}
    {outcome : Outcome Nat}
    (hplace : place < row.length)
    (hstep : stepAt precedence place row = .ok (left, outcome))
    (hnext : outcome.result = .ok next) :
    next ≤ left.length ∧ left.length - next < row.length - place := by
  obtain ⟨done, token, behind, rfl, rfl⟩ := exists_split_at hplace
  obtain ⟨cursor, hcursor, rfl, rfl⟩ :=
    (stepAt_follows precedence done behind token).exists_of_ok hstep hnext
  have hlength : cursor.tokens.length = cursor.done.length + cursor.rest.length := by
    rw [Cursor.tokens, List.length_append, List.length_reverse]
  have hrow : (done.reverse ++ token :: behind).length =
      done.length + (behind.length + 1) := by
    rw [List.length_append, List.length_reverse, List.length_cons]
  rcases placeAfter_cases hcursor with ⟨heq, hle⟩ | ⟨x, before, hdone, heq, hlt⟩
  · omega
  · -- The place goes back by one, and the row has lost two tokens or more.
    rw [hdone, List.length_cons] at hlength
    omega

end Progress

end Calculator.InPlace
