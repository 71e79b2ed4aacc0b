import Calculator.Token

namespace Calculator

/-- Why a token sequence cannot be an expression. -/
inductive Rejection where
  | empty
  | leading (op : Operation)
  | trailing (op : Operator)
  | consecutive (first : Operator) (second : Operation)
  | surplus (operators operands : Nat)
deriving DecidableEq

def Rejection.text : Rejection → String
  | empty => "empty token sequence"
  | leading op => s!"leading operator {op.symbol}"
  | trailing op => s!"trailing operator {op.symbol}"
  | consecutive first second => s!"consecutive operators {first.symbol}{second.symbol}"
  | surplus operators operands => s!"{operators} operators for {operands} operands"

namespace Shape

/-- An operation that nothing stands in front of. -/
def leading? : List Token → Option Operation
  | .operator (.binary op) :: _ => some op
  | _ => none

/-- An operator that nothing stands behind. -/
def trailing? (tokens : List Token) : Option Operator :=
  tokens.getLast?.bind Token.operator?

/-- The first operator that has an operation behind it. -/
def consecutive? : List Token → Option (Operator × Operation)
  | [] => none
  | .operator first :: .operator (.binary second) :: _ => some (first, second)
  | _ :: rest => consecutive? rest

/-- The numbers of operations and of operands, if there are too many operations. -/
def surplus? (tokens : List Token) : Option (Nat × Nat) :=
  let operators := tokens.countP Token.isBinary
  let operands := tokens.countP Token.isNumber
  if operators < operands then none else some (operators, operands)

/-- The first reason to reject a token sequence, if there is one. -/
def rejection? (tokens : List Token) : Option Rejection :=
  if tokens.isEmpty then some .empty
  else
    (leading? tokens).map .leading
      <|> (trailing? tokens).map .trailing
      <|> (consecutive? tokens).map (fun pair => .consecutive pair.1 pair.2)
      <|> (surplus? tokens).map (fun counts => .surplus counts.1 counts.2)

/-- Whether nothing speaks against a token sequence. -/
def accepts (tokens : List Token) : Bool :=
  (rejection? tokens).isNone

end Shape

namespace Bracket

/-- Whether the brackets of a token sequence are balanced behind so many open ones. -/
def isBalancedFrom : Nat → List Token → Bool
  | depth, [] => depth == 0
  | depth, .opening :: rest => isBalancedFrom (depth + 1) rest
  | 0, .closing :: _ => false
  | depth + 1, .closing :: rest => isBalancedFrom depth rest
  | depth, _ :: rest => isBalancedFrom depth rest

/-- Whether every bracket that closes has one to close, and every one that opens is
closed. -/
def isBalanced (tokens : List Token) : Bool :=
  isBalancedFrom 0 tokens

/-- A bracket sequence in which brackets pair up: an empty one, or a bracket around
a Dyck word followed by a Dyck word. -/
inductive Dyck : List Token → Prop
  | nil : Dyck []
  | pair {inner behind : List Token} :
      Dyck inner → Dyck behind → Dyck (.opening :: inner ++ .closing :: behind)

def bracketsOf (tokens : List Token) : List Token :=
  tokens.filter Token.isBracket

end Bracket

namespace Shape

/-- An operand without brackets: a number behind any number of roots. -/
inductive FlatOperand : List Token → Prop
  | number (x : Float) : FlatOperand [.number x]
  | root {tokens : List Token} : FlatOperand tokens → FlatOperand (.operator .root :: tokens)

/-- Operands joined by operations. -/
inductive Flat : List Token → Prop
  | operand {tokens : List Token} : FlatOperand tokens → Flat tokens
  | join {operand rest : List Token} (op : Operation) :
      FlatOperand operand → Flat rest → Flat (operand ++ .operator (.binary op) :: rest)

end Shape

end Calculator
