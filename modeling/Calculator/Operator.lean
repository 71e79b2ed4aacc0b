namespace Calculator

inductive Operation where
  | add
  | sub
  | mul
  | div
  | pow
deriving DecidableEq

namespace Operation

/-- Operations of higher precedence are carried out first. -/
def precedence : Operation → Nat
  | add | sub => 1
  | mul | div => 2
  | pow => 3

/-- The sign that an operation is written with. -/
def symbol : Operation → Char
  | add => '+'
  | sub => '-'
  | mul => '×'
  | div => '÷'
  | pow => '^'

end Operation

/-- An operation between its two operands, or the square root in front of its one
operand. -/
inductive Operator where
  | binary (op : Operation)
  | root
deriving DecidableEq

namespace Operator

def highestPrecedence : Nat := 3

/-- A root is taken together with the powers. -/
def precedence : Operator → Nat
  | binary op => op.precedence
  | root => 3

def isBinary : Operator → Bool
  | binary _ => true
  | root => false

def symbol : Operator → Char
  | binary op => op.symbol
  | root => '√'

theorem precedence_pos (op : Operator) : 0 < op.precedence := by
  rcases op with op | _
  · cases op <;> decide
  · decide

theorem precedence_le_highest (op : Operator) : op.precedence ≤ highestPrecedence := by
  rcases op with op | _
  · cases op <;> decide
  · decide

end Operator

end Calculator
