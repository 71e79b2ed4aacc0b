import Calculator.Proofs.Imbalance
import Calculator.Proofs.InPlace
import Calculator.Proofs.RoundTrip
import Calculator.Proofs.SafeReduction

namespace Calculator

open Calculator.Shape

namespace Bracket

/-- What a walk keeps: the tokens `before`, in front of its segment, are as the
checks have found them, with a bracket to close for each segment that waits, and all
segments can be worked on. -/
structure Sound (before : List Token) (place : Place) : Prop where
  finite : AllFinite (before ++ place.segment)
  consecutive : consecutive? (before ++ place.segment) = none
  bracketFree : BracketFree place.segment
  waiting : ∀ segment ∈ place.waiting, Workable segment
  balanced : isBalanced (before ++ List.replicate place.waiting.length .closing)

namespace Sound

variable {before behind segment outer : List Token} {waiting : List (List Token)}
  {place : Place}

theorem workable (h : Sound before place) : Workable place.segment :=
  ⟨h.bracketFree, (allFinite_append.mp h.finite).2, (of_consecutive?_append h.consecutive).2⟩

theorem front (h : Sound (before ++ behind) place) :
    AllFinite before ∧ consecutive? before = none :=
  ⟨(allFinite_append.mp (allFinite_append.mp h.finite).1).1,
    (of_consecutive?_append (of_consecutive?_append h.consecutive).1).1⟩

theorem of_token {token : Token} (htoken : token.isBracket = false)
    (h : Sound (before ++ [token]) ⟨segment, waiting⟩) :
    Sound before ⟨token :: segment, waiting⟩ := by
  obtain ⟨hfinite, hconsecutive, hfree, hwaiting, hbalanced⟩ := h
  rw [List.append_assoc] at hfinite hconsecutive
  refine ⟨hfinite, hconsecutive, bracketFree_cons.mpr ⟨htoken, hfree⟩, hwaiting, ?_⟩
  rw [isBalanced, List.append_assoc] at hbalanced
  rw [isBalanced, ← hbalanced]
  apply isBalancedFrom_append_congr
  intro depth
  exact (isBalancedFrom_token htoken depth _).symm

theorem of_closing (h : Sound (before ++ [.closing]) ⟨segment, waiting⟩) :
    Sound before ⟨[], segment :: waiting⟩ := by
  obtain ⟨hfinite, hconsecutive⟩ := h.front
  refine ⟨?_, ?_, bracketFree_nil, List.forall_mem_cons.mpr ⟨h.workable, h.waiting⟩, ?_⟩
  · rwa [List.append_nil]
  · rwa [List.append_nil]
  · have hbalanced := h.balanced
    rwa [List.append_assoc] at hbalanced

theorem of_opening {x : Float} (hx : x.isFinite)
    (h : Sound (before ++ [.opening]) ⟨segment, outer :: waiting⟩) :
    Sound before ⟨.number x :: outer, waiting⟩ := by
  obtain ⟨hfinite, hconsecutive⟩ := h.front
  obtain ⟨houter, hwaiting⟩ := List.forall_mem_cons.mp h.waiting
  have hnumber : Workable (.number x :: outer) :=
    workable_append_number workable_nil hx houter
  refine ⟨allFinite_append.mpr ⟨hfinite, hnumber.finite⟩,
    consecutive?_append hconsecutive hnumber.consecutive (.inr rfl), hnumber.bracketFree,
    hwaiting, ?_⟩
  have hbalanced := h.balanced
  rw [isBalanced, List.append_assoc] at hbalanced
  rw [isBalanced, ← hbalanced]
  apply isBalancedFrom_append_congr
  intro depth
  rfl

theorem waiting_ne_nil (h : Sound (before ++ [.opening]) ⟨segment, waiting⟩) :
    waiting ≠ [] := by
  rintro rfl
  have hbalanced := h.balanced
  rw [isBalanced, List.length_nil, List.replicate_zero, List.append_nil,
    isBalancedFrom_append_opening] at hbalanced
  contradiction

end Sound

theorem walk_token_safe {before : List Token} {token : Token} {place : Place}
    (h : Sound (before ++ [token]) place) :
    (walk reduce place [token]).Safe (Sound before) := by
  obtain ⟨segment, waiting⟩ := place
  by_cases htoken : token.isBracket = false
  · rw [walk_token reduce [] htoken]
    exact Outcome.safe_pure (h.of_token htoken)
  cases token with
  | number x => exact absurd rfl htoken
  | operator op => exact absurd rfl htoken
  | closing => exact Outcome.safe_pure h.of_closing
  | opening =>
      obtain ⟨outer, others, rfl⟩ := List.exists_cons_of_ne_nil h.waiting_ne_nil
      refine Outcome.Safe.bind (reduce_safe h.workable) fun x _ hx => ?_
      refine Outcome.Safe.bind (Outcome.safe_record ?_) fun _ _ _ => ?_
      · rintro y (_ | ⟨_, ⟨⟩⟩)
        exact hx
      · exact Outcome.safe_pure (h.of_opening hx)

theorem walk_safe {before behind : List Token} {place : Place}
    (h : Sound (before ++ behind) place) :
    (walk reduce place behind.reverse).Safe (Sound before) := by
  -- The walk takes the last token first.
  induction behind using List.reverseRecOn generalizing place with
  | nil =>
      rw [List.append_nil] at h
      exact Outcome.safe_pure h
  | append_singleton behind token ih =>
      rw [← List.append_assoc] at h
      rw [List.reverse_append, walk_append]
      exact Outcome.Safe.bind (walk_token_safe h) fun next _ hnext => ih hnext

theorem resolve_safe {tokens : List Token} (h : Sound tokens ⟨[], []⟩) :
    (resolve tokens).Safe fun x => x.isFinite := by
  rw [resolve, resolveWith, resolveFrom]
  have hwalk : (walk reduce ⟨[], []⟩ tokens.reverse).Safe (Sound []) := walk_safe h
  refine Outcome.Safe.bind hwalk ?_
  rintro ⟨segment, waiting⟩ - hplace
  cases waiting with
  | nil => exact reduce_safe hplace.workable
  | cons outer waiting => exact absurd hplace.balanced Bool.false_ne_true

/-- The segments that evaluation works on: the one it stands in, those that wait,
and what the passes make of them. -/
inductive Works (tokens : List Token) : List Token → Prop
  | current {before behind : List Token} {place : Place} :
      tokens = before ++ behind →
        (walk reduce ⟨[], []⟩ behind.reverse).result = .ok place →
        Works tokens place.segment
  | waiting {before behind : List Token} {place : Place} {segment : List Token} :
      tokens = before ++ behind →
        (walk reduce ⟨[], []⟩ behind.reverse).result = .ok place →
        segment ∈ place.waiting → Works tokens segment
  | reduced {segment : List Token} {precedence : Nat} {cursor : Cursor} :
      Works tokens segment → Reduces segment precedence cursor →
        Works tokens cursor.tokens

theorem workable_of_works {tokens segment : List Token} (h : Works tokens segment)
    (htokens : Sound tokens ⟨[], []⟩) : Workable segment := by
  induction h with
  | current hsplit hplace =>
      subst hsplit
      exact ((walk_safe htokens).value _ hplace).workable
  | waiting hsplit hplace hsegment =>
      subst hsplit
      exact ((walk_safe htokens).value _ hplace).waiting _ hsegment
  | reduced _ hreduces ih => exact workable_of_reduces hreduces ih

end Bracket

open Calculator.Bracket

theorem Expression.sound {text : String} {expression : Expression}
    (h : (Expression.parse text).result = .ok expression) :
    Sound expression.tokens ⟨[], []⟩ := by
  have hclean := clean_of_tokenize (parse_eq_ok.mp h)
  refine ⟨?_, ?_, bracketFree_nil, nofun, ?_⟩
  · rw [List.append_nil]
    exact hclean.finite
  · rw [List.append_nil]
    exact consecutive?_of_accepts expression.accepted
  · rw [List.length_nil, List.replicate_zero, List.append_nil]
    exact expression.balanced

theorem Expression.evaluate_safe {text : String} {expression : Expression}
    (h : (Expression.parse text).result = .ok expression) (precision : Precision) :
    (expression.evaluate precision).Safe fun _ => True := by
  rw [evaluate, Calculator.evaluate, map_eq_pure_bind]
  exact Outcome.Safe.bind (resolve_safe (sound h)) fun _ _ _ => Outcome.safe_pure trivial

/-- What the evaluation of an expression can run into: all numbers that it works on
or logs are finite, no root is taken for an operation in the rows that it reduces,
and it ends in no fault that the checks in front of it exclude. -/
theorem evaluate_parsed_safe (text : String) (expression : Expression)
    (h : (Expression.parse text).result = .ok expression) (precision : Precision) :
    (∀ segment, Works expression.tokens segment → ∀ x, .number x ∈ segment → x.isFinite) ∧
    (∀ entry ∈ (expression.evaluate precision).log, ∀ x ∈ entry.numbers, x.isFinite) ∧
    (∀ segment, Works expression.tokens segment →
      (∀ precedence place, InPlace.stepAt precedence place segment ≠ .error .rootAsOperation) ∧
      ∃ left, InPlace.reduceAt segment = .ok (left, reduce segment)) ∧
    ∀ fault, (expression.evaluate precision).result = .error fault →
      fault ≠ .unmatchedOpening ∧ fault ≠ .unmatchedClosing ∧
      (∀ x, fault ≠ .notFinite x) ∧
        (∀ x, fault ≠ .rootNotFinite x) ∧ ∀ token, fault ≠ .expectedNumber token := by
  have hsafe := Expression.evaluate_safe h precision
  refine ⟨?_, hsafe.log, ?_, ?_⟩
  · intro segment hworks
    exact (workable_of_works hworks (Expression.sound h)).finite
  · intro segment _
    obtain ⟨left, hrun, -⟩ := InPlace.reduceAt_follows segment
    rw [id_map] at hrun
    exact ⟨fun precedence place => InPlace.stepAt_ne_rootAsOperation precedence place segment,
      left, hrun⟩
  · intro fault hfault
    have hof := hsafe.fault fault hfault
    refine ⟨?_, ?_, ?_, ?_, ?_⟩
    · rintro rfl
      nomatch hof
    · rintro rfl
      nomatch hof
    · rintro x rfl
      nomatch hof
    · rintro x rfl
      nomatch hof
    · rintro token rfl
      nomatch hof

/-- The text `1÷0` is an expression. Its one row is reduced without a defect, to the
fault of the division. -/
theorem evaluate_parsed_safe_quotient : ∃ expression : Expression,
    expression.tokens = [.number 1, .operator (.binary .div), .number 0] ∧
      (Expression.parse expression.text).result = .ok expression ∧
      (expression.evaluate .standard).result = .error .divisionByZero ∧
      (∀ x, .number x ∈ expression.tokens → x.isFinite) ∧
      (∀ entry ∈ (expression.evaluate .standard).log, ∀ x ∈ entry.numbers, x.isFinite) ∧
      (∃ left, InPlace.reduceAt expression.tokens = .ok (left, reduce expression.tokens)) ∧
      ∀ token, Fault.divisionByZero ≠ .expectedNumber token := by
  have hclean : Clean [.number 1, .operator (.binary .div), .number 0] := by
    rw [Shorthand.clean_iff]
    refine ⟨List.cons_ne_nil _ _, ?_, ⟨?_, ?_, ?_⟩, Shorthand.kept_binary ?_,
      ⟨?_, ?_, ?_⟩, trivial⟩
    · rintro x (_ | ⟨_, _ | ⟨_, _ | ⟨_, ⟨⟩⟩⟩⟩) <;> decide
    · exact Bool.false_ne_true
    · rintro x y ⟨⟩
    · rintro x after ⟨⟩
    · rintro x after ⟨⟩
    · exact Bool.false_ne_true
    · rintro x y ⟨⟩
    · rintro x after ⟨⟩
  have hquotient : (resolve [.number 1, .operator (.binary .div), .number 0]).result =
      .error .divisionByZero := by
    rw [resolve_of_bracketFree (by simp [BracketFree, Token.isBracket])]
    exact result_reduce_div_zero 1 (by decide)
  let expression : Expression :=
    ⟨[.number 1, .operator (.binary .div), .number 0], rfl, rfl⟩
  have hparse : (Expression.parse expression.text).result = .ok expression :=
    Expression.parse_eq_ok.mpr (result_tokenize_written hclean)
  have hvalue : (expression.evaluate .standard).result = .error .divisionByZero := by
    rw [Expression.evaluate, result_evaluate]
    exact congrArg (Except.map _) hquotient
  obtain ⟨hworks, hlog, hrow, hfault⟩ := evaluate_parsed_safe _ _ hparse .standard
  have hwalk : (walk reduce ⟨[], []⟩ expression.tokens.reverse).result =
      .ok ⟨expression.tokens, []⟩ := rfl
  have hcurrent : Works expression.tokens expression.tokens :=
    .current (List.nil_append _).symm hwalk
  exact ⟨expression, rfl, hparse, hvalue, hworks _ hcurrent, hlog, (hrow _ hcurrent).2,
    (hfault _ hvalue).2.2.2.2⟩

end Calculator
