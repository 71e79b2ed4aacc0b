import Calculator.Shape
import Calculator.Text
import Calculator.Token

namespace Calculator

/-- How much a record matters: decisions about an input, or single steps of a
calculation. -/
inductive Level where
  | debug
  | trace
deriving DecidableEq

def Level.name : Level → String
  | debug => "DEBUG"
  | trace => "TRACE"

/-- One entry of the log. -/
inductive Record where
  | tokenized (text : String) (count : Nat)
  | rejected (why : Rejection)
  | rooted (x root : Float)
  | combined (op : Operation) (left right result : Float)
  | resolved (value : Float)

namespace Record

/-- Steps of a calculation are traced. -/
def level : Record → Level
  | tokenized .. | rejected .. => .debug
  | rooted .. | combined .. | resolved .. => .trace

def text : Record → String
  | tokenized text count => s!"tokenized {Text.quoted text} into {count} tokens"
  | rejected why => s!"rejected {why.text}"
  | rooted x root => s!"√{numberText x} = {numberText root}"
  | combined op left right result =>
      s!"{numberText left} {op.symbol} {numberText right} = {numberText result}"
  | resolved value => s!"bracket resolved to {numberText value}"

end Record

end Calculator
