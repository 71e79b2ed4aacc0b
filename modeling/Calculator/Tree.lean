import Calculator.Arithmetic

/-!
Expressions as trees.

A tree is built from numbers, roots, operations and brackets. `Derives` is the
grammar that says which tokens stand for which tree, `Evaluates` says which value a
tree has if it has one, and `value` computes it, or the fault that stands in its
place.
-/

namespace Calculator

inductive Tree where
  | number (x : Float)
  | bracket (inner : Tree)
  | root (inner : Tree)
  | binary (op : Operation) (left right : Tree)

/-- The tokens of a precedence level stand for a tree. Level 1 is that of sums, 2 of
products, 3 of powers; level 4 has numbers, brackets and roots. Operations of one
level group to the left. -/
inductive Derives : (level : Nat) → List Token → Tree → Prop
  | number (x : Float) : Derives 4 [.number x] (.number x)
  | bracket {tokens : List Token} {tree : Tree} :
      Derives 1 tokens tree →
        Derives 4 (.opening :: tokens ++ [.closing]) (.bracket tree)
  | root {tokens : List Token} {tree : Tree} :
      Derives 4 tokens tree → Derives 4 (.operator .root :: tokens) (.root tree)
  | binary {op : Operation} {leftTokens rightTokens : List Token} {left right : Tree} :
      Derives op.precedence leftTokens left →
        Derives (op.precedence + 1) rightTokens right →
        Derives op.precedence (leftTokens ++ .operator (.binary op) :: rightTokens)
          (.binary op left right)
  | lift {level : Nat} {tokens : List Token} {tree : Tree} :
      level ∈ [1, 2, 3] → Derives (level + 1) tokens tree → Derives level tokens tree

namespace Tree

/-- A tree has a value if its parts have values, no root is that of a negative
number, no divisor is zero, and the results of roots and operations and the values
of brackets are finite. -/
inductive Evaluates : Tree → Float → Prop
  | number (x : Float) : Evaluates (number x) x
  | bracket {inner : Tree} {x : Float} :
      Evaluates inner x → x.isFinite → Evaluates (bracket inner) x
  | root {inner : Tree} {x : Float} :
      Evaluates inner x → ¬ x < 0 → x.sqrt.isFinite → Evaluates (root inner) x.sqrt
  | binary {op : Operation} {left right : Tree} {x y : Float} :
      Evaluates left x → Evaluates right y → ¬ (op = .div ∧ y == 0) →
        (op.value x y).isFinite → Evaluates (binary op left right) (op.value x y)

theorem evaluates_number_iff {x y : Float} : (number x).Evaluates y ↔ y = x := by
  constructor
  · rintro ⟨⟩
    rfl
  · rintro rfl
    exact .number y

theorem evaluates_bracket_iff {inner : Tree} {x : Float} :
    (bracket inner).Evaluates x ↔ inner.Evaluates x ∧ x.isFinite := by
  constructor
  · rintro (_ | ⟨hinner, hfinite⟩)
    exact ⟨hinner, hfinite⟩
  · rintro ⟨hinner, hfinite⟩
    exact .bracket hinner hfinite

theorem evaluates_root_iff {inner : Tree} {y : Float} :
    (root inner).Evaluates y ↔
      ∃ x, inner.Evaluates x ∧ ¬ x < 0 ∧ x.sqrt.isFinite ∧ y = x.sqrt := by
  constructor
  · rintro (_ | _ | ⟨hinner, hnegative, hfinite⟩)
    exact ⟨_, hinner, hnegative, hfinite, rfl⟩
  · rintro ⟨x, hinner, hnegative, hfinite, rfl⟩
    exact .root hinner hnegative hfinite

theorem evaluates_binary_iff {op : Operation} {left right : Tree} {z : Float} :
    (binary op left right).Evaluates z ↔
      ∃ x y, left.Evaluates x ∧ right.Evaluates y ∧ ¬ (op = .div ∧ y == 0) ∧
        (op.value x y).isFinite ∧ z = op.value x y := by
  constructor
  · rintro (_ | _ | _ | ⟨hleft, hright, hdivision, hfinite⟩)
    exact ⟨_, _, hleft, hright, hdivision, hfinite, rfl⟩
  · rintro ⟨x, y, hleft, hright, hdivision, hfinite, rfl⟩
    exact .binary hleft hright hdivision hfinite

/-- The value of a tree. A bracket has a value only if what is in it has a finite
one. -/
def value : Tree → Except Fault Float
  | number x => .ok x
  | bracket inner => do checkFinite (← inner.value)
  | root inner => do squareRoot (← inner.value)
  | binary op left right => do
      let x ← left.value
      let y ← right.value
      op.apply x y

def tokens : Tree → List Token
  | number x => [.number x]
  | bracket inner => .opening :: inner.tokens ++ [.closing]
  | root inner => .operator .root :: inner.tokens
  | binary op left right => left.tokens ++ .operator (.binary op) :: right.tokens

end Tree

theorem tokens_of_derives {level : Nat} {tokens : List Token} {tree : Tree}
    (h : Derives level tokens tree) : tree.tokens = tokens := by
  induction h with
  | number x => rfl
  | bracket _ ih => simp [Tree.tokens, ih]
  | root _ ih => simp [Tree.tokens, ih]
  | binary _ _ ihleft ihright => simp [Tree.tokens, ihleft, ihright]
  | lift _ _ ih => exact ih

end Calculator
