import Calculator.Fault
import Calculator.Text

namespace Calculator.Lexer

open Calculator.Text

def number (literal : Literal) : Except Fault Token :=
  if literal.endsInPoint then .error (.malformedLiteral literal)
  else if literal.decimal.toFloat.isFinite then .ok (.number literal.decimal.toFloat)
  else .error (.literalTooLarge literal)

/-- The token that begins with `c`, a character that is not blank, and the text
behind it. -/
def token (c : Char) (rest : List Char) : Except Fault Token × List Char :=
  if Literal.isPart c then
    let (literal, after) := Literal.read (c :: rest)
    (number literal, after)
  else
    match Token.ofSymbol? c with
    | some symbol => (.ok symbol, rest)
    | none => (.error (.unexpectedCharacter c), rest)

theorem length_le_of_token {c : Char} {rest after : List Char}
    {result : Except Fault Token}
    (h : token c rest = (result, after)) : after.length ≤ rest.length := by
  unfold token at h
  split at h
  · rename_i hpart
    obtain ⟨-, rfl⟩ := Prod.mk.inj h
    exact Nat.le_of_lt_succ (Literal.length_rest_lt hpart rfl)
  · split at h <;> obtain ⟨-, rfl⟩ := Prod.mk.inj h <;> exact Nat.le_refl _

/-- Reads tokens up to the end of a text or the first fault, and returns the text
behind. -/
def tokens : List Char → Except Fault (List Token) × List Char
  | [] => (.ok [], [])
  | c :: rest =>
      if isBlank c then tokens rest
      else
        match h : token c rest with
        | (.error fault, after) => (.error fault, after)
        | (.ok first, after) =>
            have := length_le_of_token h
            let (others, behind) := tokens after
            (others.map (first :: ·), behind)
termination_by text => text.length

/-- Reads the tokens of a text, at least one, and returns the text that has not been
read. -/
def lex (text : List Char) : Except Fault (List Token) × List Char :=
  match tokens text with
  | (.ok [], behind) => (.error .emptyExpression, behind)
  | other => other

/-- The answers of so many calls in a row, each of which goes on where the last one
stopped. -/
def lexRepeatedly : (calls : Nat) → List Char → List (Except Fault (List Token))
  | 0, _ => []
  | calls + 1, text => (lex text).1 :: lexRepeatedly calls (lex text).2

end Calculator.Lexer
