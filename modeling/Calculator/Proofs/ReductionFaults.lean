import Calculator.Proofs.SafeReduction

namespace Calculator

/-- The faults that the reduction of a segment can end in, whatever its tokens are. -/
inductive Fault.OfReduction : Fault → Prop
  | evaluation {fault : Fault} : fault.OfEvaluation → OfReduction fault
  | expectedNumber (token : Token) : OfReduction (.expectedNumber token)
  | rootNotFinite (x : Float) : OfReduction (.rootNotFinite x)
  | notFinite (x : Float) : OfReduction (.notFinite x)

namespace Outcome

variable {α β : Type} {P : Fault → Prop}

/-- Every fault that a computation can end in is as `P` says. -/
def FailsWith (P : Fault → Prop) (outcome : Outcome α) : Prop :=
  ∀ fault, outcome.result = .error fault → P fault

theorem failsWith_pure (x : α) : (pure x : Outcome α).FailsWith P := nofun

theorem failsWith_fail {fault : Fault} (h : P fault) :
    (fail fault : Outcome α).FailsWith P := by
  rintro other ⟨⟩
  exact h

theorem FailsWith.bind {first : Outcome α} {next : α → Outcome β}
    (hfirst : first.FailsWith P)
    (hnext : ∀ x, (next x).FailsWith P) : (first >>= next).FailsWith P := by
  intro fault h
  rcases error_of_result_bind_eq_error h with hfault | ⟨x, -, hfault⟩
  · exact hfirst fault hfault
  · exact hnext x fault hfault

end Outcome

open Calculator.Outcome

section Reduction

theorem takeRoot_failsWith (x : Float) : (takeRoot x).FailsWith Fault.OfReduction := by
  intro fault h
  rw [result_takeRoot, squareRoot] at h
  split at h
  · obtain rfl := Except.error.inj h
    exact .evaluation (.negativeRoot x)
  · split at h
    · contradiction
    · obtain rfl := Except.error.inj h
      exact .rootNotFinite x

theorem combine_failsWith (op : Operation) (left right : Float) :
    (combine op left right).FailsWith Fault.OfReduction := by
  intro fault h
  rw [result_combine] at h
  rcases apply_eq_error_iff.mp h with ⟨-, rfl⟩ | ⟨-, -, rfl⟩
  · exact .evaluation .divisionByZero
  · exact .evaluation (.resultNotFinite op left right)

theorem operand_failsWith (tokens : List Token) :
    (operand tokens).FailsWith Fault.OfReduction := by
  fun_induction operand tokens with
  | case1 => exact failsWith_fail (.evaluation .missingOperandAtEnd)
  | case2 x rest => exact failsWith_pure _
  | case3 rest ih =>
      exact ih.bind fun _ => (takeRoot_failsWith _).bind fun _ => failsWith_pure _
  | case4 token => exact failsWith_fail (.expectedNumber token)

theorem Cursor.step_failsWith (precedence : Nat) (cursor : Cursor) :
    (cursor.step precedence).FailsWith Fault.OfReduction := by
  have hsteps := cursor.steps precedence
  generalize cursor.step precedence = outcome at hsteps
  cases hsteps with
  | finished done => exact failsWith_pure _
  | passed htoken => exact failsWith_pure _
  | rooted hprecedence => exact (operand_failsWith _).bind fun _ => failsWith_pure _
  | combined hprecedence =>
      refine (operand_failsWith _).bind fun _ => ?_
      exact (combine_failsWith _ _ _).bind fun _ => failsWith_pure _
  | missing done behind op => exact failsWith_fail (.evaluation (.missingOperandBefore op))

theorem passFrom_failsWith (precedence : Nat) (cursor : Cursor) :
    (passFrom precedence cursor).FailsWith Fault.OfReduction := by
  induction cursor using passFrom.induct precedence with
  | case1 cursor hrest =>
      rw [passFrom_of_rest_eq_nil hrest]
      exact failsWith_pure _
  | case2 cursor hrest ih =>
      rw [passFrom_of_rest_ne_nil hrest]
      intro fault h
      rcases Outcome.error_of_result_bind_eq_error h with hstep | ⟨next, hstep, hfault⟩
      · exact cursor.step_failsWith precedence fault hstep
      · exact ih next hstep fault hfault

theorem single_failsWith (tokens : List Token) :
    (Outcome.ofExcept (single tokens)).FailsWith Fault.OfReduction := by
  unfold single
  split
  · exact failsWith_fail (.evaluation .emptyExpression)
  · rename_i x
    intro fault h
    rw [Outcome.result_ofExcept, checkFinite] at h
    split at h
    · contradiction
    · obtain rfl := Except.error.inj h
      exact .notFinite x
  · exact failsWith_fail (.evaluation (.missingOperator _))

theorem reduce_failsWith (tokens : List Token) :
    (reduce tokens).FailsWith Fault.OfReduction := by
  have hpass (precedence : Nat) (tokens : List Token) :
      (pass precedence tokens).FailsWith Fault.OfReduction :=
        passFrom_failsWith precedence _
  exact (hpass 3 _).bind fun _ => (hpass 2 _).bind fun _ => (hpass 1 _).bind fun _ =>
    single_failsWith _

end Reduction

end Calculator
