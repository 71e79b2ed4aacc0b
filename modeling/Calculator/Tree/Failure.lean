import Calculator.Tree

/-!
Where the evaluation of a tree fails.

An operator fails if its operands have values and it has none for them. Of all
operators that fail, evaluation meets the one first whose innermost bracket opens
furthest to the right, then the one of the highest precedence, then the leftmost
one.
-/

namespace Calculator

/-- Where an operator stands: the place behind the innermost bracket that opens
around it, which is 0 outside all brackets, its precedence and its own place. -/
structure Site where
  segment : Nat
  precedence : Nat
  position : Nat
deriving DecidableEq

/-- Whether evaluation comes to one site before it comes to another. -/
def Site.Precedes (first second : Site) : Prop :=
  second.segment < first.segment ∨
    first.segment = second.segment ∧
      (second.precedence < first.precedence ∨
        first.precedence = second.precedence ∧ first.position < second.position)

namespace Tree

/-- The fault of an operator whose operands have values, at its site. -/
def failureAt (site : Site) : Except Fault Float → List (Site × Fault)
  | .ok _ => []
  | .error fault => [(site, fault)]

/-- The operators that fail although their operands have values, in a tree whose first
token stands at `start` and whose innermost bracket opens in front of `segment`. -/
def failures (segment start : Nat) : Tree → List (Site × Fault)
  | number _ => []
  | bracket inner => inner.failures (start + 1) (start + 1)
  | root inner =>
      match inner.value with
      | .ok x => failureAt ⟨segment, Operator.root.precedence, start⟩ (squareRoot x)
      | .error _ => inner.failures segment (start + 1)
  | binary op left right =>
      let position := start + left.tokens.length
      match left.value, right.value with
      | .ok x, .ok y => failureAt ⟨segment, op.precedence, position⟩ (op.apply x y)
      | _, _ => left.failures segment start ++ right.failures segment (position + 1)

/-- The operators of a tree, each with its site and the part of the tree
that it stands for. -/
def operators (segment start : Nat) : Tree → List (Site × Tree)
  | number _ => []
  | bracket inner => inner.operators (start + 1) (start + 1)
  | root inner =>
      (⟨segment, Operator.root.precedence, start⟩, root inner) ::
        inner.operators segment (start + 1)
  | binary op left right =>
      let position := start + left.tokens.length
      left.operators segment start ++
        (⟨segment, op.precedence, position⟩, binary op left right) ::
          right.operators segment (position + 1)

/-- The fault of an operator whose operands have values: the root of a negative
number, a division by zero, or a result that is not finite. -/
inductive Fails : Tree → Fault → Prop
  | negativeRoot {inner : Tree} {x : Float} :
      inner.Evaluates x → x < 0 → Fails (root inner) (.negativeRoot x)
  | divisionByZero {left right : Tree} {x y : Float} :
      left.Evaluates x → right.Evaluates y → y == 0 →
        Fails (binary .div left right) .divisionByZero
  | resultNotFinite {op : Operation} {left right : Tree} {x y : Float} :
      left.Evaluates x → right.Evaluates y → ¬ (op = .div ∧ y == 0) →
        ¬ (op.value x y).isFinite →
          Fails (binary op left right) (.resultNotFinite op x y)

/-- The kind of the fault of an operator and the text that tells it. -/
inductive Told : Tree → Fault.Kind → String → Prop
  | negativeRoot {inner : Tree} {x : Float} :
      inner.Evaluates x → x < 0 →
        Told (root inner) .invalidExpression
          ("square root of negative number " ++ numberText x)
  | divisionByZero {left right : Tree} {x y : Float} :
      left.Evaluates x → right.Evaluates y → y == 0 →
        Told (binary .div left right) .divisionByZero "division by zero"
  | resultNotFinite {op : Operation} {left right : Tree} {x y : Float} :
      left.Evaluates x → right.Evaluates y → ¬ (op = .div ∧ y == 0) →
        ¬ (op.value x y).isFinite →
          Told (binary op left right) .invalidExpression
            (numberText x ++ " " ++ op.symbol.toString ++ " " ++ numberText y ++
              " has no finite result")

theorem Fails.told {part : Tree} {fault : Fault} (h : part.Fails fault) :
    part.Told fault.kind fault.detail := by
  cases h with
  | negativeRoot hinner hnegative => exact .negativeRoot hinner hnegative
  | divisionByZero hleft hright hzero => exact .divisionByZero hleft hright hzero
  | resultNotFinite hleft hright hdivision hresult =>
      exact .resultNotFinite hleft hright hdivision hresult

/-- An operator that fails, and that evaluation meets before all others that fail. -/
structure FirstFailure (tree : Tree) (site : Site) (part : Tree) (fault : Fault) :
    Prop where
  operator : (site, part) ∈ tree.operators 0 0
  fails : part.Fails fault
  first : ∀ otherSite other otherFault, (otherSite, other) ∈ tree.operators 0 0 →
    other.Fails otherFault → otherSite = site ∨ site.Precedes otherSite

end Tree

end Calculator
