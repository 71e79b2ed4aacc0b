import Calculator.Token.Lexer

/-!
The lexical grammar of expressions.

A text falls into blanks, signs and runs of digits and points. A run falls into
literals: it is cut in front of every point but its first.
-/

namespace Calculator

open Calculator.Text

/-- A part of a text that stands for one token. -/
inductive Lexeme where
  | literal (number : Literal)
  | sign (c : Char)

namespace Lexeme

def token : Lexeme → Except Fault Token
  | literal number => Lexer.number number
  | sign c =>
      match Token.ofSymbol? c with
      | some symbol => .ok symbol
      | none => .error (.unexpectedCharacter c)

/-- The parts of a text between its points. -/
def betweenPoints : List Char → List (List Char)
  | [] => [[]]
  | c :: rest =>
      if c = '.' then [] :: betweenPoints rest
      else
        match betweenPoints rest with
        | [] => [[c]]
        | part :: others => (c :: part) :: others

/-- The literals of a run of digits and points, cut in front of every point but the
first. -/
def literalsOfRun (run : List Char) : List Literal :=
  match betweenPoints run with
  | [] => []
  | [whole] => [⟨whole, none⟩]
  | whole :: fraction :: others =>
      ⟨whole, some fraction⟩ :: others.map fun part => ⟨[], some part⟩

/-- The lexemes of a maximal run of digits and points, or of any other character
alone. -/
def ofGroup : List Char → List Lexeme
  | [] => []
  | c :: rest =>
      if Literal.isPart c then (literalsOfRun (c :: rest)).map literal
      else if isBlank c then []
      else [sign c]

def ofText (text : List Char) : List Lexeme :=
  (text.splitBy fun c d => Literal.isPart c && Literal.isPart d).flatMap ofGroup

end Lexeme

end Calculator
