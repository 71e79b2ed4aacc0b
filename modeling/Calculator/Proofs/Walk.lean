import Calculator.Evaluation
import Calculator.Proofs.Nesting
import Calculator.Proofs.Value

namespace Calculator.Bracket

section

variable (value : List Token → Outcome Float)

theorem reverse_bracket (inner behind : List Token) :
    (Token.opening :: (inner ++ .closing :: behind)).reverse =
      behind.reverse ++ .closing :: (inner.reverse ++ [.opening]) := by
  simp

theorem walk_append (place : Place) (behind before : List Token) :
    walk value place (behind ++ before) =
      walk value place behind >>= fun next => walk value next before := by
  induction behind generalizing place with
  | nil => exact (pure_bind _ _).symm
  | cons token behind ih =>
      by_cases htoken : token.isBracket = false
      · rw [List.cons_append, walk_token value _ htoken, walk_token value _ htoken]
        exact ih _
      cases token with
      | number x => exact absurd rfl htoken
      | operator op => exact absurd rfl htoken
      | closing => exact ih _
      | opening =>
          obtain ⟨segment, waiting⟩ := place
          cases waiting with
          | nil => rfl
          | cons outer waiting =>
              simp only [List.cons_append, walk, bind_assoc]
              congr 1
              funext x
              congr 1
              funext _
              exact ih _

variable {value} in
theorem walk_result_append {place next : Place} {behind : List Token}
    (h : (walk value place behind).result = .ok next) (before : List Token) :
    (walk value place (behind ++ before)).result = (walk value next before).result := by
  rw [walk_append, Outcome.result_bind_of_ok _ h]

variable {value} in
theorem walk_result_append_of_error {place : Place} {behind : List Token}
    {fault : Fault}
    (h : (walk value place behind).result = .error fault) (before : List Token) :
    (walk value place (behind ++ before)).result = .error fault := by
  rw [walk_append, Outcome.result_bind, h]
  rfl

theorem resolveWith_append (before behind : List Token) :
    resolveWith value (before ++ behind) =
      walk value ⟨[], []⟩ behind.reverse >>= fun place =>
        resolveFrom value place.segment place.waiting before.reverse := by
  rw [resolveWith, resolveFrom, List.reverse_append, walk_append, bind_assoc]
  rfl

variable {value} in
theorem result_resolveWith_of_walk {tokens : List Token} {place : Place}
    (h : (walk value ⟨[], []⟩ tokens.reverse).result = .ok place) :
    (resolveWith value tokens).result = (finish value place).result := by
  rw [resolveWith, resolveFrom, Outcome.result_bind_of_ok _ h]

variable {value} in
theorem result_resolveWith_of_walk_error {tokens : List Token} {fault : Fault}
    (h : (walk value ⟨[], []⟩ tokens.reverse).result = .error fault) :
    (resolveWith value tokens).result = .error fault := by
  rw [resolveWith, resolveFrom, Outcome.result_bind, h]
  rfl

/-- A balanced sequence puts what is left of it, without brackets, in front of any
segment. -/
theorem exists_remainder_of_nested {tokens : List Token} (h : Nested tokens) :
    ∃ remainder : Outcome (List Token), ∀ place,
      walk value place tokens.reverse =
        remainder >>= fun left => return ⟨left ++ place.segment, place.waiting⟩ := by
  induction h with
  | nil => exact ⟨return [], fun place => (pure_bind _ _).symm⟩
  | @token token rest htoken _ ih =>
      obtain ⟨remainder, hrest⟩ := ih
      refine ⟨remainder >>= fun left => return token :: left, fun place => ?_⟩
      rw [List.reverse_cons, walk_append, hrest, bind_assoc, bind_assoc]
      congr 1
      funext left
      rw [pure_bind, pure_bind, walk_token value _ htoken]
      rfl
  | @pair inner behind _ _ ihinner ihbehind =>
      obtain ⟨innerRemainder, hinner⟩ := ihinner
      obtain ⟨behindRemainder, hbehind⟩ := ihbehind
      refine ⟨behindRemainder >>= fun left => innerRemainder >>= fun inside =>
        value inside >>= fun x => .record (.resolved x) >>= fun _ => return .number x :: left,
        fun place => ?_⟩
      rw [reverse_bracket, walk_append, hbehind, bind_assoc, bind_assoc]
      congr 1
      funext left
      rw [pure_bind, walk, walk_append, hinner, bind_assoc, bind_assoc]
      congr 1
      funext inside
      rw [pure_bind, List.append_nil]
      simp only [walk, bind_assoc, pure_bind]
      rfl

theorem walk_bracket {inner : List Token} (h : Nested inner) (place : Place) :
    walk value place (.closing :: (inner.reverse ++ [.opening])) =
      resolveWith value inner >>= fun x => .record (.resolved x) >>= fun _ =>
        return ⟨.number x :: place.segment, place.waiting⟩ := by
  obtain ⟨remainder, hwalk⟩ := exists_remainder_of_nested value h
  rw [walk, walk_append, hwalk, bind_assoc, resolveWith, resolveFrom, hwalk, bind_assoc,
    bind_assoc]
  rfl

theorem isBalancedFrom_of_walk {behind : List Token} {place : Place}
    (h : (walk value ⟨[], []⟩ behind.reverse).result = .ok place) (depth : Nat) :
    isBalancedFrom depth behind = (depth == place.waiting.length) := by
  induction behind generalizing place depth with
  | nil =>
      obtain rfl := Except.ok.inj h
      rfl
  | cons token behind ih =>
      rw [List.reverse_cons, walk_append] at h
      obtain ⟨⟨segment, waiting⟩, hbehind, h⟩ := Outcome.exists_of_result_bind_eq_ok h
      by_cases htoken : token.isBracket = false
      · rw [walk_token value _ htoken] at h
        obtain rfl := Except.ok.inj h
        rw [isBalancedFrom_token htoken]
        exact ih hbehind depth
      cases token with
      | number x => exact absurd rfl htoken
      | operator op => exact absurd rfl htoken
      | closing =>
          obtain rfl := Except.ok.inj h
          cases depth with
          | zero => rfl
          | succ depth =>
              rw [isBalancedFrom, ih hbehind, List.length_cons]
              exact Bool.eq_iff_iff.mpr (by simp)
      | opening =>
          cases waiting with
          | nil => contradiction
          | cons outer waiting =>
              obtain ⟨x, -, h⟩ := Outcome.exists_of_result_bind_eq_ok h
              obtain rfl := Except.ok.inj h
              rw [isBalancedFrom, ih hbehind, List.length_cons]
              exact Bool.eq_iff_iff.mpr (by simp)

theorem isBalanced_iff_of_walk {tokens : List Token} {place : Place}
    (h : (walk value ⟨[], []⟩ tokens.reverse).result = .ok place) :
    isBalanced tokens ↔ place.waiting = [] := by
  rw [isBalanced, isBalancedFrom_of_walk value h, beq_iff_eq, eq_comm,
    List.length_eq_zero_iff]

end

end Calculator.Bracket
