import Calculator.Precision
import Calculator.Reduction

/-!
Evaluation of a token sequence with brackets.

The tokens are walked from the right. An opening bracket closes the segment begun by
the nearest closing bracket that still waits for one. That segment holds no bracket
any more; it is reduced, and its value stands for the bracket. So brackets are
resolved innermost first, and of several innermost ones the rightmost first.
-/

namespace Calculator

namespace Bracket

/-- Where a walk stands: in a segment, with other segments that wait for an opening
bracket, the innermost first. -/
structure Place where
  segment : List Token
  waiting : List (List Token)

section

variable (value : List Token → Outcome Float)

/-- The place that the tokens `before`, given from right to left, lead to. A bracket
stands for the value of the segment in it. -/
def walk (place : Place) : (before : List Token) → Outcome Place
  | [] => return place
  | .closing :: before => walk ⟨[], place.segment :: place.waiting⟩ before
  | .opening :: before =>
      match place.waiting with
      | [] => .fail .unmatchedOpening
      | outer :: waiting => do
          let x ← value place.segment
          .record (.resolved x)
          walk ⟨.number x :: outer, waiting⟩ before
  | token :: before => walk ⟨token :: place.segment, place.waiting⟩ before

/-- The value of a segment with no token in front of it. -/
def finish (place : Place) : Outcome Float :=
  if place.waiting.isEmpty then value place.segment else .fail .unmatchedClosing

/-- The value that the tokens `before`, given from right to left, have together with
the segments behind them. -/
def resolveFrom (segment : List Token) (waiting : List (List Token))
    (before : List Token) :
    Outcome Float :=
  walk value ⟨segment, waiting⟩ before >>= finish value

/-- The value of a token sequence with brackets, where `value` is that of a segment
without. -/
def resolveWith (tokens : List Token) : Outcome Float :=
  resolveFrom value [] [] tokens.reverse

variable (segment : List Token) (waiting : List (List Token)) (before : List Token)

theorem walk_token {token : Token} (h : token.isBracket = false) (place : Place) :
    walk value place (token :: before) =
      walk value ⟨token :: place.segment, place.waiting⟩ before := by
  cases token with
  | number x => rfl
  | operator op => rfl
  | opening => contradiction
  | closing => contradiction

theorem resolveFrom_nil :
    resolveFrom value segment waiting [] =
      if waiting.isEmpty then value segment else .fail .unmatchedClosing :=
  pure_bind _ _

theorem resolveFrom_token {token : Token} (h : token.isBracket = false) :
    resolveFrom value segment waiting (token :: before) =
      resolveFrom value (token :: segment) waiting before := by
  rw [resolveFrom, walk_token value before h]
  rfl

theorem resolveFrom_closing :
    resolveFrom value segment waiting (.closing :: before) =
      resolveFrom value [] (segment :: waiting) before := rfl

theorem resolveFrom_opening_nil :
    resolveFrom value segment [] (.opening :: before) = .fail .unmatchedOpening := rfl

theorem resolveFrom_opening_cons (outer : List Token) :
    resolveFrom value segment (outer :: waiting) (.opening :: before) =
      value segment >>= fun x => .record (.resolved x) >>= fun _ =>
        resolveFrom value (.number x :: outer) waiting before := by
  simp only [resolveFrom, walk, bind_assoc]

end

/-- The value of a token sequence with brackets, which is not rounded. -/
def resolve (tokens : List Token) : Outcome Float :=
  resolveWith reduce tokens

end Bracket

/-- The value of a token sequence. Brackets keep the full precision of what is in
them; only the final value is rounded. -/
def evaluate (precision : Precision) (tokens : List Token) : Outcome Float :=
  precision.round <$> Bracket.resolve tokens

/-- The value of a segment, a token sequence that must hold no brackets. -/
def evaluateSegment (precision : Precision) (tokens : List Token) : Outcome Float :=
  if tokens.any Token.isBracket then .fail .unmatchedClosing
  else precision.round <$> reduce tokens

end Calculator
