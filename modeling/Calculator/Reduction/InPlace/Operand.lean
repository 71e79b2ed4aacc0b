import Calculator.InPlace
import Calculator.Reduction.Cursor

namespace Calculator

def takeRootTimes : (count : Nat) → Float → Outcome Float
  | 0, x => return x
  | count + 1, x => do
      let root ← takeRoot x
      takeRootTimes count root

section Roots

theorem takeRootTimes_succ (count : Nat) (x : Float) :
    takeRootTimes (count + 1) x = takeRootTimes count x >>= takeRoot := by
  induction count generalizing x with
  | zero =>
      rw [takeRootTimes, takeRootTimes, pure_bind]
      exact bind_pure (takeRoot x)
  | succ count ih =>
      rw [takeRootTimes, takeRootTimes, bind_assoc]
      exact congrArg (takeRoot x >>= ·) (funext ih)

theorem operand_eq_takeRootTimes (count : Nat) (x : Float) (behind : List Token) :
    operand (List.replicate count (.operator .root) ++ .number x :: behind) =
      takeRootTimes count x >>= fun root => return (root, behind) := by
  induction count with
  | zero => rfl
  | succ count ih =>
      rw [List.replicate_succ, List.cons_append, operand, ih, takeRootTimes_succ,
        bind_assoc, bind_assoc]
      rfl

theorem operand_eq_fail {fault : Fault} (count : Nat) {tail : List Token}
    (h : operand tail = .fail fault) :
    operand (List.replicate count (.operator .root) ++ tail) = .fail fault := by
  induction count with
  | zero => exact h
  | succ count ih =>
      rw [List.replicate_succ, List.cons_append, operand, ih]
      rfl

theorem exists_leading_roots (tokens : List Token) :
    ∃ count tail, tokens = List.replicate count (.operator .root) ++ tail ∧
      ∀ others, tail ≠ .operator .root :: others := by
  fun_induction operand tokens with
  | case1 =>
      refine ⟨0, [], rfl, ?_⟩
      rintro others ⟨⟩
  | case2 x rest =>
      refine ⟨0, .number x :: rest, rfl, ?_⟩
      rintro others ⟨⟩
  | case3 rest ih =>
      obtain ⟨count, tail, rfl, htail⟩ := ih
      exact ⟨count + 1, tail, rfl, htail⟩
  | case4 token rest hnumber hroot =>
      refine ⟨0, token :: rest, rfl, ?_⟩
      rintro others ⟨⟩
      exact hroot rfl

end Roots

namespace InPlace

/-- How many roots stand in a row from a place on. -/
def rootsFrom (place : Nat) (row : List Token) : Nat :=
  ((row.drop place).takeWhile fun token => token matches .operator .root).length

/-- Puts a number in the place of the roots at a place and the number behind them. -/
def putOperand (place roots : Nat) (x : Float) : InPlace Unit :=
  if 0 < roots then do
    takeOut (place + 1) (place + roots)
    put place (.number x)
  else return ()

/-- The operand at a place. Its roots are taken innermost first. -/
def operandAt (place : Nat) : InPlace Float := do
  let tokens ← row
  let roots := rootsFrom place tokens
  match tokens[place + roots]? with
  | some (.number x) => do
      let value ← ofOutcome (takeRootTimes roots x)
      putOperand place roots value
      return value
  | some other => fail (.expectedNumber other)
  | none => fail .missingOperandAtEnd

section Places

variable (front : List Token)

theorem rootsFrom_length (count : Nat) {tail : List Token}
    (h : ∀ others, tail ≠ .operator .root :: others) :
    rootsFrom front.length (front ++ (List.replicate count (.operator .root) ++ tail)) =
      count := by
  have hroots : ∀ token ∈ List.replicate count (Token.operator .root),
      (token matches .operator .root) = true := by
    intro token htoken
    rw [List.eq_of_mem_replicate htoken]
  have htail : tail.takeWhile (fun token => token matches .operator .root) = [] := by
    rcases tail with _ | ⟨x | (op | _) | _ | _, others⟩
    · rfl
    · rfl
    · rfl
    · exact absurd rfl (h others)
    · rfl
    · rfl
  rw [rootsFrom, List.drop_left, List.takeWhile_append_of_pos hroots, htail,
    List.append_nil, List.length_replicate]

theorem getElem?_behind_roots (count : Nat) (tail : List Token) :
    (front ++ (List.replicate count (.operator .root) ++ tail))[front.length + count]? =
      tail.head? := by
  rw [List.getElem?_append_right (Nat.le_add_right _ _), Nat.add_sub_cancel_left,
    List.getElem?_append_right (by simp), List.length_replicate, Nat.sub_self,
    List.head?_eq_getElem?]

theorem putOperand_roots (count : Nat) (x y : Float) (behind : List Token) :
    putOperand front.length (count + 1) x
        (front ++ (List.replicate (count + 1) (.operator .root) ++ .number y :: behind)) =
      .ok (front ++ .number x :: behind, return ()) := by
  have hlength : front.length + (count + 1) + 1 =
      (front ++ [Token.operator .root]).length +
        (List.replicate count (Token.operator .root) ++ [Token.number y]).length := by
    simp
    omega
  have htake := takeOut_length (front ++ [.operator .root]) behind hlength (by simp)
  have hrow : front ++ (List.replicate (count + 1) (.operator .root) ++ .number y :: behind) =
      front ++ [.operator .root] ++
        (List.replicate count (.operator .root) ++ [.number y] ++ behind) := by
    simp [List.replicate_succ]
  rw [putOperand, if_pos (Nat.succ_pos count), hrow]
  rw [List.length_append, List.length_singleton] at htake
  rw [bind_of_pure _ htake, List.append_assoc]
  exact put_length front behind (.operator .root) (.number x)

/-- The row that is left when the operand behind `front` has been taken, if it has a
value. -/
def rowLeft (front rest : List Token) : Except Fault (Float × List Token) → List Token
  | .ok (x, behind) => front ++ .number x :: behind
  | .error _ => front ++ rest

theorem settle_roots (count : Nat) (x : Float) (behind : List Token) :
    (do
        let value ← ofOutcome (takeRootTimes count x)
        putOperand front.length count value
        return value : InPlace Float)
        (front ++ (List.replicate count (.operator .root) ++ .number x :: behind)) =
      .ok (rowLeft front (List.replicate count (.operator .root) ++ .number x :: behind)
        ((takeRootTimes count x).result.map (·, behind)), takeRootTimes count x) := by
  generalize hrow :
    front ++ (List.replicate count (.operator .root) ++ .number x :: behind) = tokens
  have hrun : ofOutcome (takeRootTimes count x) tokens =
      .ok (tokens, takeRootTimes count x) := rfl
  rcases htimes : takeRootTimes count x with ⟨log, fault | root⟩
  · rw [htimes] at hrun
    rw [bind_of_error _ hrun rfl, ← hrow]
    rfl
  · rw [htimes] at hrun
    have hput : putOperand front.length count root tokens =
        .ok (front ++ .number root :: behind, return ()) := by
      cases count with
      | zero =>
          obtain rfl : x = root := Except.ok.inj (congrArg Outcome.result htimes)
          rw [← hrow]
          rfl
      | succ count =>
          rw [← hrow]
          exact putOperand_roots front count root x behind
    rw [bind_of_ok _ hrun rfl, bind_of_pure _ hput, pure_apply]
    refine congrArg (fun outcome => Except.ok (front ++ .number root :: behind, outcome)) ?_
    exact Outcome.ext (List.append_nil log) rfl

theorem operandAt_length (rest : List Token) :
    operandAt front.length (front ++ rest) =
      .ok (rowLeft front rest (operand rest).result, Prod.fst <$> operand rest) := by
  obtain ⟨count, tail, rfl, htail⟩ := exists_leading_roots rest
  have hroots := rootsFrom_length front count htail
  have hget := getElem?_behind_roots front count tail
  rw [operandAt, bind_of_pure _ (row_apply _)]
  simp only [hroots, hget]
  rcases tail with _ | ⟨x | (op | _) | _ | _, behind⟩
  · rw [operand_eq_fail count rfl]
    rfl
  · have hvalue :
        Prod.fst <$> (takeRootTimes count x >>= fun root => return (root, behind)) =
        takeRootTimes count x := by
      rw [map_bind]
      exact bind_pure (takeRootTimes count x)
    have hresult :
        (takeRootTimes count x >>= fun root => return (root, behind)).result =
        (takeRootTimes count x).result.map (·, behind) := by
      rw [Outcome.result_bind]
      rfl
    rw [operand_eq_takeRootTimes, hvalue, hresult]
    exact settle_roots front count x behind
  · rw [operand_eq_fail count rfl]
    rfl
  · exact absurd rfl (htail behind)
  · rw [operand_eq_fail count rfl]
    rfl
  · rw [operand_eq_fail count rfl]
    rfl

end Places

end InPlace

end Calculator
