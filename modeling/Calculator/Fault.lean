import Calculator.Literal
import Calculator.Token

namespace Calculator

inductive Fault.Kind where
  | invalidExpression
  | divisionByZero
deriving DecidableEq

/-- Why an expression has no value. -/
inductive Fault where
  | divisionByZero
  | emptyExpression
  | unexpectedCharacter (c : Char)
  | malformedLiteral (literal : Literal)
  | literalTooLarge (literal : Literal)
  | malformedExpression (text : String)
  | unbalancedBrackets (text : String)
  | unmatchedOpening
  | unmatchedClosing
  | missingOperandBefore (op : Operation)
  | missingOperandAtEnd
  | expectedNumber (found : Token)
  | missingOperator (tokens : List Token)
  | negativeRoot (x : Float)
  | rootNotFinite (x : Float)
  | resultNotFinite (op : Operation) (left right : Float)
  | notFinite (x : Float)

namespace Fault

def kind : Fault → Kind
  | divisionByZero => .divisionByZero
  | _ => .invalidExpression

def Kind.name : Kind → String
  | invalidExpression => "InvalidExpression"
  | divisionByZero => "DivisionByZero"

/-- What went wrong, in words. -/
def detail : Fault → String
  | divisionByZero => "division by zero"
  | emptyExpression => "empty expression"
  | unexpectedCharacter c => s!"unexpected character in input: {c}"
  | malformedLiteral literal => s!"invalid number {literal.text}"
  | literalTooLarge literal => s!"number too large: {literal.text}"
  | malformedExpression text => s!"malformed expression {text}"
  | unbalancedBrackets text => s!"unbalanced brackets in {text}"
  | unmatchedOpening => "unmatched opening bracket"
  | unmatchedClosing => "unmatched closing bracket"
  | missingOperandBefore op => s!"missing operand before {op.symbol}"
  | missingOperandAtEnd => "missing operand at end of expression"
  | expectedNumber found => s!"expected a number, found {found.text}"
  | missingOperator tokens => s!"missing operator in {Token.written tokens}"
  | negativeRoot x => s!"square root of negative number {numberText x}"
  | rootNotFinite x => s!"√{numberText x} has no finite result"
  | resultNotFinite op left right =>
      s!"{numberText left} {op.symbol} {numberText right} has no finite result"
  | notFinite x => s!"{numberText x} is not a finite number"

def message (fault : Fault) : String :=
  s!"{fault.kind.name}: {fault.detail}"

end Fault

end Calculator
