import Calculator.Decimal.Shortest
import Calculator.Operator

namespace Calculator

/-- A number, an operator or a bracket. Tokens are compared with the equality of
doubles, by which `0` is `-0` and nothing is NaN. -/
inductive Token where
  | number (x : Float)
  | operator (op : Operator)
  | opening
  | closing
deriving BEq

namespace Token

def number? : Token → Option Float
  | number x => some x
  | _ => none

def operator? : Token → Option Operator
  | operator op => some op
  | _ => none

def isNumber : Token → Bool
  | number _ => true
  | _ => false

def isBinary : Token → Bool
  | operator op => op.isBinary
  | _ => false

def isBracket : Token → Bool
  | opening | closing => true
  | _ => false

/-- The token with a sign of its own. A product, a quotient and a difference have a
sign on the keyboard and one in print. -/
def ofSymbol? : Char → Option Token
  | '+' => some (operator (.binary .add))
  | '-' | '−' => some (operator (.binary .sub))
  | '*' | '×' => some (operator (.binary .mul))
  | '/' | '÷' => some (operator (.binary .div))
  | '^' => some (operator (.binary .pow))
  | '√' => some (operator .root)
  | '(' => some opening
  | ')' => some closing
  | _ => none

theorem ofSymbol?_symbol (op : Operator) :
    ofSymbol? op.symbol = some (operator op) := by
  rcases op with op | _
  · cases op <;> rfl
  · rfl

def chars : Token → List Char
  | number x => numberChars x
  | operator op => [op.symbol]
  | opening => ['(']
  | closing => [')']

def text (token : Token) : String :=
  String.ofList token.chars

/-- What keeps two neighbouring tokens apart: a space between two numbers. -/
def gap : Token → Token → List Char
  | number _, number _ => [' ']
  | _, _ => []

def writtenChars : List Token → List Char
  | [] => []
  | [token] => token.chars
  | token :: next :: rest => token.chars ++ gap token next ++ writtenChars (next :: rest)

def written (tokens : List Token) : String :=
  String.ofList (writtenChars tokens)

end Token

end Calculator
