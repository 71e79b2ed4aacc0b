import Calculator.Arithmetic

namespace Calculator

/-- Takes an operand from the front of a token sequence and returns its value with
the tokens behind it. The roots in front of a number are taken innermost first. -/
def operand : List Token → Outcome (Float × List Token)
  | [] => .fail .missingOperandAtEnd
  | .number x :: rest => pure (x, rest)
  | .operator .root :: rest => do
      let (x, rest) ← operand rest
      let root ← takeRoot x
      return (root, rest)
  | token :: _ => .fail (.expectedNumber token)

theorem length_lt_of_operand {tokens rest : List Token} {x : Float}
    (h : (operand tokens).result = .ok (x, rest)) : rest.length < tokens.length := by
  fun_induction operand tokens generalizing x rest with
  | case1 => nomatch h
  | case2 y tail =>
      obtain ⟨-, rfl⟩ := Prod.mk.inj (Except.ok.inj h)
      exact Nat.lt_succ_self _
  | case3 tail ih =>
      obtain ⟨⟨y, after⟩, hoperand, h⟩ := Outcome.exists_of_result_bind_eq_ok h
      obtain ⟨root, -, h⟩ := Outcome.exists_of_result_bind_eq_ok h
      obtain ⟨-, rfl⟩ := Prod.mk.inj (Except.ok.inj h)
      exact Nat.lt_succ_of_lt (ih hoperand)
  | case4 => nomatch h

/-- The tokens in front of a place, the last one first, and the tokens behind it. -/
structure Cursor where
  done : List Token
  rest : List Token

namespace Cursor

def start (tokens : List Token) : Cursor :=
  ⟨[], tokens⟩

def tokens (cursor : Cursor) : List Token :=
  cursor.done.reverse ++ cursor.rest

/-- One step of the pass for a precedence. -/
def step (precedence : Nat) (cursor : Cursor) : Outcome Cursor :=
  match cursor.rest with
  | [] => return cursor
  | .operator .root :: rest =>
      if Operator.root.precedence = precedence then do
        let (x, rest) ← operand (.operator .root :: rest)
        return ⟨.number x :: cursor.done, rest⟩
      else return ⟨.operator .root :: cursor.done, rest⟩
  | .operator (.binary op) :: rest =>
      if op.precedence = precedence then
        match cursor.done with
        | .number left :: done => do
            let (right, rest) ← operand rest
            let result ← combine op left right
            return ⟨.number result :: done, rest⟩
        | _ => .fail (.missingOperandBefore op)
      else return ⟨.operator (.binary op) :: cursor.done, rest⟩
  | token :: rest => return ⟨token :: cursor.done, rest⟩

@[simp] theorem tokens_start (tokens : List Token) : (start tokens).tokens = tokens :=
  rfl

theorem tokens_cons (token : Token) (done rest : List Token) :
    tokens ⟨token :: done, rest⟩ = done.reverse ++ token :: rest := by
  rw [tokens, List.reverse_cons, List.append_assoc, List.singleton_append]

theorem length_rest_lt_of_step {precedence : Nat} {cursor next : Cursor}
    (hrest : cursor.rest ≠ [])
    (h : (cursor.step precedence).result = .ok next) :
    next.rest.length < cursor.rest.length := by
  unfold step at h
  split at h
  · contradiction
  · rename_i rest heq
    rw [heq]
    split at h
    · obtain ⟨⟨x, after⟩, hoperand, h⟩ := Outcome.exists_of_result_bind_eq_ok h
      obtain rfl := Except.ok.inj h
      exact length_lt_of_operand hoperand
    · obtain rfl := Except.ok.inj h
      exact Nat.lt_succ_self _
  · rename_i op rest heq
    rw [heq]
    split at h
    · split at h
      · obtain ⟨⟨right, after⟩, hoperand, h⟩ := Outcome.exists_of_result_bind_eq_ok h
        obtain ⟨result, -, h⟩ := Outcome.exists_of_result_bind_eq_ok h
        obtain rfl := Except.ok.inj h
        exact Nat.lt_succ_of_lt (length_lt_of_operand hoperand)
      · nomatch h
    · obtain rfl := Except.ok.inj h
      exact Nat.lt_succ_self _
  · rename_i heq
    rw [heq]
    obtain rfl := Except.ok.inj h
    exact Nat.lt_succ_self _

end Cursor

end Calculator
