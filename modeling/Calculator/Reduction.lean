import Calculator.Reduction.Cursor

/-!
Reduction of a segment, a token sequence without brackets, to one number.

Operators are carried out in passes, those of the highest precedence first and
within a pass from left to right. What is left at the end has to be a single finite
number.
-/

namespace Calculator

/-- The rest of the pass for a precedence from a place in the tokens on. -/
def passFrom (precedence : Nat) (cursor : Cursor) : Outcome (List Token) :=
  if _ : cursor.rest = [] then return cursor.tokens
  else do
    let ⟨next, _⟩ ← (cursor.step precedence).attach
    passFrom precedence next
termination_by cursor.rest.length
decreasing_by exact Cursor.length_rest_lt_of_step ‹_› ‹_›

/-- Carries out the operators of one precedence from left to right. -/
def pass (precedence : Nat) (tokens : List Token) : Outcome (List Token) :=
  passFrom precedence (.start tokens)

/-- The single finite number that a token sequence is. -/
def single : List Token → Except Fault Float
  | [] => .error .emptyExpression
  | [.number x] => checkFinite x
  | tokens => .error (.missingOperator tokens)

/-- Reduces a segment to its value, which is not rounded. -/
def reduce (tokens : List Token) : Outcome Float := do
  let tokens ← pass 3 tokens
  let tokens ← pass 2 tokens
  let tokens ← pass 1 tokens
  .ofExcept (single tokens)

theorem passFrom_of_rest_eq_nil {precedence : Nat} {cursor : Cursor}
    (h : cursor.rest = []) :
    passFrom precedence cursor = return cursor.tokens := by
  rw [passFrom, dif_pos h]

theorem passFrom_of_rest_ne_nil {precedence : Nat} {cursor : Cursor}
    (h : cursor.rest ≠ []) :
    passFrom precedence cursor = cursor.step precedence >>= passFrom precedence := by
  rw [passFrom, dif_neg h]
  exact Outcome.attach_bind _ _

end Calculator
