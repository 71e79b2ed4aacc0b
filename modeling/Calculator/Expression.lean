import Calculator.Shape
import Calculator.Evaluation
import Calculator.Token.Lexer
import Calculator.Token.Shorthand

namespace Calculator

/-- The tokens of a text, with its shorthand made explicit. -/
def tokenize (text : String) : Outcome (List Token) := do
  let written ← .ofExcept (Lexer.lex text.toList).1
  let tokens := Shorthand.expand written
  .record (.tokenized text tokens.length)
  return tokens

/-- Whether the written form of a token sequence is read back as the same tokens. -/
def readsBack (tokens : List Token) : Bool :=
  match (tokenize (Token.written tokens)).result with
  | .ok again => again == tokens
  | .error _ => false

/-- Whether a token sequence has the shape of an expression; the reason
against it is logged. -/
def checkShape (tokens : List Token) : Outcome Bool :=
  match Shape.rejection? tokens with
  | none => return true
  | some why => do
      .record (.rejected why)
      return false

/-- Tokens that have the shape of an expression and balanced brackets. -/
structure Expression where
  tokens : List Token
  accepted : Shape.accepts tokens
  balanced : Bracket.isBalanced tokens

namespace Expression

/-- Expressions are compared by their tokens. -/
instance : BEq Expression where
  beq first second := first.tokens == second.tokens

def parse (text : String) : Outcome Expression := do
  let tokens ← tokenize text
  let _ ← checkShape tokens
  if accepted : Shape.accepts tokens then
    if balanced : Bracket.isBalanced tokens then return ⟨tokens, accepted, balanced⟩
    else .fail (.unbalancedBrackets (Text.trim text))
  else .fail (.malformedExpression (Text.trim text))

def evaluate (expression : Expression) (precision : Precision) : Outcome Float :=
  Calculator.evaluate precision expression.tokens

def text (expression : Expression) : String :=
  Token.written expression.tokens

end Expression

/-- The value of the expression that a text holds, in the standard precision. -/
def calculate (text : String) : Outcome Float := do
  let expression ← Expression.parse text
  expression.evaluate .standard

theorem result_tokenize (text : String) :
    (tokenize text).result = (Lexer.lex text.toList).1.map Shorthand.expand := by
  rw [tokenize, Outcome.result_bind, Outcome.result_ofExcept]
  rcases (Lexer.lex text.toList).1 with fault | written <;> rfl

theorem result_checkShape (tokens : List Token) :
    (checkShape tokens).result = .ok (Shape.accepts tokens) := by
  rw [checkShape, Shape.accepts]
  rcases Shape.rejection? tokens with _ | why <;> rfl

theorem Expression.parse_eq_ok {text : String} {expression : Expression} :
    (Expression.parse text).result = .ok expression ↔
      (tokenize text).result = .ok expression.tokens := by
  rw [Expression.parse, Outcome.result_bind]
  rcases (tokenize text).result with fault | tokens
  · constructor <;> intro h <;> contradiction
  · change (checkShape tokens >>= _).result = _ ↔ _
    rw [Outcome.result_bind, result_checkShape]
    change Outcome.result (if _ : _ then _ else _) = _ ↔ _
    constructor
    · intro h
      split at h
      · split at h
        · cases h
          rfl
        · contradiction
      · contradiction
    · intro h
      cases h
      rw [dif_pos expression.accepted, dif_pos expression.balanced]
      rfl

end Calculator
