import Calculator.Reduction
import Calculator.Reduction.InPlace.Step

namespace Calculator.InPlace

/-- The rest of the pass for a precedence from a place in the row on. -/
def passAt (precedence place : Nat) (row : List Token) :
    Except Defect (List Token × Outcome Unit) :=
  if _ : place < row.length then
    match _ : stepAt precedence place row with
    | .error which => .error which
    | .ok (left, outcome) =>
        match _ : outcome.result with
        | .error fault => .ok (left, ⟨outcome.log, .error fault⟩)
        | .ok next =>
            (passAt precedence next left).map fun ending =>
              (ending.1, outcome >>= fun _ => ending.2)
  else .ok (row, return ())
termination_by row.length - place
decreasing_by
  exact (sub_lt_of_stepAt ‹_› ‹stepAt precedence place row = _› ‹outcome.result = _›).2

theorem passAt_of_lt {precedence place : Nat} {row : List Token}
    (h : place < row.length) :
    passAt precedence place row = (stepAt precedence place >>= passAt precedence) row := by
  rw [passAt, dif_pos h]
  split
  · rename_i which hstep
    exact (bind_of_defect _ hstep).symm
  · rename_i left outcome hstep
    split
    · rename_i fault hfault
      exact (bind_of_error _ hstep hfault).symm
    · rename_i next hnext
      exact (bind_of_ok _ hstep hnext).symm

theorem passAt_length (precedence : Nat) (row : List Token) :
    passAt precedence row.length row = .ok (row, return ()) := by
  rw [passAt, dif_neg (Nat.lt_irrefl _)]

/-- Reduces a row to its value, which is not rounded. -/
def reduceAt : InPlace Float := do
  passAt 3 0
  passAt 2 0
  passAt 1 0
  let tokens ← row
  ofOutcome (.ofExcept (single tokens))

end Calculator.InPlace
