import Calculator.Binary64
import Calculator.Token

/-!
Shorthand in the notation of expressions: a sign in front of a number, and a product
without a sign of its own, as in `2(3)` or `(2)√9`.

`expand` makes both explicit in one walk over the tokens. `foldSigns` and
`writeProducts` do one thing each.
-/

namespace Calculator

open Calculator.Binary64

namespace Shorthand

/-- Whether an operand begins behind `previous`, so that a `-` there is a
sign and no difference. -/
def operandBegins : (previous : Option Token) → Bool
  | none | some (.operator _) | some .opening => true
  | _ => false

/-- Whether two neighbouring tokens are the factors of a product that is not written. -/
def productImplied : (previous : Option Token) → (next : Token) → Bool
  | some .closing, .number _ => true
  | some .closing, .opening | some .closing, .operator .root => true
  | some (.number _), .opening | some (.number _), .operator .root => true
  | _, _ => false

/-- Makes the shorthand of a token sequence behind `previous` explicit: signs become
part of their numbers, and implied products are written. -/
def expandFrom (previous : Option Token) : List Token → List Token
  | [] => []
  | .operator (.binary .sub) :: .number x :: rest =>
      if operandBegins previous then .number (-x) :: expandFrom (some (.number (-x))) rest
      else
        .operator (.binary .sub) ::
          expandFrom (some (.operator (.binary .sub))) (.number x :: rest)
  | token :: rest =>
      if productImplied previous token then
        .operator (.binary .mul) :: token :: expandFrom (some token) rest
      else token :: expandFrom (some token) rest

def expand (tokens : List Token) : List Token :=
  expandFrom none tokens

/-- Makes signs part of their numbers, in a token sequence behind `previous`. -/
def foldSignsFrom (previous : Option Token) : List Token → List Token
  | [] => []
  | .operator (.binary .sub) :: .number x :: rest =>
      if operandBegins previous then .number (-x) :: foldSignsFrom (some (.number x)) rest
      else
        .operator (.binary .sub) ::
          foldSignsFrom (some (.operator (.binary .sub))) (.number x :: rest)
  | token :: rest => token :: foldSignsFrom (some token) rest

def foldSigns (tokens : List Token) : List Token :=
  foldSignsFrom none tokens

def writeProducts : List Token → List Token
  | [] => []
  | [token] => [token]
  | token :: next :: rest =>
      if productImplied (some token) next then
        token :: .operator (.binary .mul) :: writeProducts (next :: rest)
      else token :: writeProducts (next :: rest)

end Shorthand

/-- A token sequence that holds no shorthand and would not be taken for
shorthand when written. -/
structure Clean (tokens : List Token) : Prop where
  nonempty : tokens ≠ []
  /-- Every number can be written with digits. -/
  finite : ∀ x, .number x ∈ tokens → x.isFinite
  /-- No product is left out. -/
  products : ∀ before token next after,
    tokens = before ++ token :: next :: after →
      ¬ Shorthand.productImplied (some token) next
  /-- The sign of a number does not stand behind another number, where it
  would be a difference. -/
  differences : ∀ before x y after,
    tokens = before ++ .number x :: .number y :: after → ¬ isNegative y
  /-- A `-` in front of a number without a sign is a difference. -/
  signs : ∀ before x after,
    tokens = before ++ .operator (.binary .sub) :: .number x :: after →
      Shorthand.operandBegins before.getLast? → isNegative x

end Calculator
