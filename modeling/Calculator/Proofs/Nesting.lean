import Calculator.Shape

namespace Calculator.Bracket

/-- A token sequence in which brackets pair up. -/
inductive Nested : List Token → Prop
  | nil : Nested []
  | token {token : Token} {rest : List Token} :
      token.isBracket = false → Nested rest → Nested (token :: rest)
  | pair {inner behind : List Token} :
      Nested inner → Nested behind → Nested (.opening :: (inner ++ .closing :: behind))

theorem isBalancedFrom_token {token : Token} (h : token.isBracket = false) (depth : Nat)
    (rest : List Token) :
    isBalancedFrom depth (token :: rest) = isBalancedFrom depth rest := by
  cases token with
  | number x => rfl
  | operator op => rfl
  | opening => contradiction
  | closing => contradiction

theorem isBalancedFrom_append_congr {behind other : List Token}
    (h : ∀ depth, isBalancedFrom depth behind = isBalancedFrom depth other)
    (before : List Token) (depth : Nat) :
    isBalancedFrom depth (before ++ behind) = isBalancedFrom depth (before ++ other) := by
  induction before generalizing depth with
  | nil => exact h depth
  | cons token before ih =>
      cases token with
      | number x => exact ih depth
      | operator op => exact ih depth
      | opening => exact ih (depth + 1)
      | closing =>
          cases depth with
          | zero => rfl
          | succ depth => exact ih depth

theorem isBalancedFrom_append_opening (before : List Token) (depth : Nat) :
    isBalancedFrom depth (before ++ [.opening]) = false := by
  induction before generalizing depth with
  | nil => rfl
  | cons token before ih =>
      cases token with
      | number x => exact ih depth
      | operator op => exact ih depth
      | opening => exact ih (depth + 1)
      | closing =>
          cases depth with
          | zero => rfl
          | succ depth => exact ih depth

theorem isBalancedFrom_append_of_nested {inner : List Token} (h : Nested inner)
    (depth : Nat)
    (rest : List Token) :
    isBalancedFrom depth (inner ++ rest) = isBalancedFrom depth rest := by
  induction h generalizing depth rest with
  | nil => rfl
  | token htoken _ ih =>
      rw [List.cons_append, isBalancedFrom_token htoken]
      exact ih depth rest
  | pair _ _ ihinner ihbehind =>
      rw [List.cons_append, List.append_assoc, isBalancedFrom, ihinner]
      exact ihbehind depth rest

/-- A sequence that closes an open bracket falls into what stands in that bracket,
the bracket that closes it, and what stands behind. -/
theorem exists_nested_of_isBalancedFrom_succ {depth : Nat} {tokens : List Token}
    (h : isBalancedFrom (depth + 1) tokens) : ∃ inner behind,
      tokens = inner ++ .closing :: behind ∧ Nested inner ∧
      isBalancedFrom depth behind := by
  induction hlength : tokens.length using Nat.strongRecOn generalizing depth tokens with
  | ind length ih =>
      subst hlength
      rcases tokens with _ | ⟨token, rest⟩
      · contradiction
      have hrest : rest.length < (token :: rest).length := Nat.lt_succ_self _
      by_cases htoken : token.isBracket = false
      · rw [isBalancedFrom_token htoken] at h
        obtain ⟨inner, behind, rfl, hinner, hbehind⟩ := ih _ hrest h rfl
        exact ⟨token :: inner, behind, rfl, .token htoken hinner, hbehind⟩
      cases token with
      | number x => exact absurd rfl htoken
      | operator op => exact absurd rfl htoken
      | closing => exact ⟨[], rest, rfl, .nil, h⟩
      | opening =>
          -- The bracket that opens here is closed first, then the one that was open before.
          have hinside : isBalancedFrom (depth + 1 + 1) rest := h
          obtain ⟨first, after, rfl, hfirst, hafter⟩ := ih _ hrest hinside rfl
          have hshorter :
              after.length < (Token.opening :: (first ++ .closing :: after)).length := by
            simp only [List.length_cons, List.length_append]
            omega
          obtain ⟨second, behind, rfl, hsecond, hbehind⟩ := ih _ hshorter hafter rfl
          exact ⟨.opening :: (first ++ .closing :: second), behind, by simp,
            .pair hfirst hsecond, hbehind⟩

theorem nested_iff_isBalanced {tokens : List Token} :
    Nested tokens ↔ isBalanced tokens := by
  constructor
  · intro h
    have hbalanced := isBalancedFrom_append_of_nested h 0 []
    rwa [List.append_nil] at hbalanced
  · intro h
    induction hlength : tokens.length using Nat.strongRecOn generalizing tokens with
    | ind length ih =>
        subst hlength
        rcases tokens with _ | ⟨token, rest⟩
        · exact .nil
        by_cases htoken : token.isBracket = false
        · rw [isBalanced, isBalancedFrom_token htoken] at h
          exact .token htoken (ih _ (Nat.lt_succ_self _) h rfl)
        cases token with
        | number x => exact absurd rfl htoken
        | operator op => exact absurd rfl htoken
        | closing => contradiction
        | opening =>
            obtain ⟨inner, behind, rfl, hinner, hbehind⟩ :=
              exists_nested_of_isBalancedFrom_succ h
            refine .pair hinner (ih _ ?_ hbehind rfl)
            simp only [List.length_cons, List.length_append]
            omega

end Calculator.Bracket
