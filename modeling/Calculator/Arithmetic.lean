import Calculator.Outcome

namespace Calculator

def Operation.value : Operation → Float → Float → Float
  | add, left, right => left + right
  | sub, left, right => left - right
  | mul, left, right => left * right
  | div, left, right => left / right
  | pow, left, right => left.pow right

def Operation.apply (op : Operation) (left right : Float) : Except Fault Float :=
  if op = div ∧ right == 0 then .error .divisionByZero
  else if (op.value left right).isFinite then .ok (op.value left right)
  else .error (.resultNotFinite op left right)

def squareRoot (x : Float) : Except Fault Float :=
  if x < 0 then .error (.negativeRoot x)
  else if x.sqrt.isFinite then .ok x.sqrt
  else .error (.rootNotFinite x)

def checkFinite (x : Float) : Except Fault Float :=
  if x.isFinite then .ok x else .error (.notFinite x)

def combine (op : Operation) (left right : Float) : Outcome Float := do
  let result ← .ofExcept (op.apply left right)
  .record (.combined op left right result)
  return result

def takeRoot (x : Float) : Outcome Float := do
  let root ← .ofExcept (squareRoot x)
  .record (.rooted x root)
  return root

theorem result_combine (op : Operation) (left right : Float) :
    (combine op left right).result = op.apply left right := by
  unfold combine
  rcases op.apply left right with fault | result <;> rfl

theorem result_takeRoot (x : Float) : (takeRoot x).result = squareRoot x := by
  unfold takeRoot
  rcases squareRoot x with fault | root <;> rfl

end Calculator
