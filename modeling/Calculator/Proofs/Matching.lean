import Calculator.Shape
import Calculator.Proofs.ReductionFaults
import Calculator.Proofs.SafeEvaluation

/-!
The check for balanced brackets and the walk from the right find the same brackets
missing.

The check counts from the left and stops at the first bracket that closes none; the
walk stops at the last bracket that is not closed, or at a segment without a value.
What they share is the number of brackets that have to be open in front of a place:
as many as there are segments that wait behind it.
-/

namespace Calculator

/-- The faults by which the walk over a token sequence tells a missing bracket. -/
inductive Fault.OfBrackets : Fault → Prop
  | opening : OfBrackets .unmatchedOpening
  | closing : OfBrackets .unmatchedClosing

theorem Fault.OfReduction.not_ofBrackets {fault : Fault} (h : fault.OfReduction) :
    ¬ fault.OfBrackets := by
  rintro (_ | _)
  · rcases h with hevaluation | _ | _ | _
    nomatch hevaluation
  · rcases h with hevaluation | _ | _ | _
    nomatch hevaluation

theorem append_notMem_of_front {front behind : String} {texts : List String}
    (h : ∀ text ∈ texts, ¬ front.toList <+: text.toList) : front ++ behind ∉ texts := by
  intro hmem
  have hfront := h _ hmem
  rw [String.toList_append] at hfront
  exact hfront (List.prefix_append _ _)

theorem append_notMem_of_behind {front behind : String} {texts : List String}
    (h : ∀ text ∈ texts, ¬ behind.toList <:+ text.toList) :
    front ++ behind ∉ texts := by
  intro hmem
  have hbehind := h _ hmem
  rw [String.toList_append] at hbehind
  exact hbehind (List.suffix_append _ _)

theorem Fault.ofBrackets_iff_detail {fault : Fault} :
    fault.OfBrackets ↔
      fault.detail ∈ ["unmatched opening bracket", "unmatched closing bracket"] := by
  constructor
  · rintro (_ | _)
    · exact List.mem_cons_self
    · exact List.mem_cons_of_mem _ List.mem_cons_self
  · intro h
    cases fault with
    | unmatchedOpening => exact .opening
    | unmatchedClosing => exact .closing
    | divisionByZero => exact absurd h (by decide)
    | emptyExpression => exact absurd h (by decide)
    | missingOperandAtEnd => exact absurd h (by decide)
    | missingOperandBefore op => exact absurd h (by cases op <;> decide)
    | unexpectedCharacter c => exact absurd h (append_notMem_of_front (by decide))
    | malformedLiteral literal => exact absurd h (append_notMem_of_front (by decide))
    | literalTooLarge literal => exact absurd h (append_notMem_of_front (by decide))
    | malformedExpression text => exact absurd h (append_notMem_of_front (by decide))
    | unbalancedBrackets text => exact absurd h (append_notMem_of_front (by decide))
    | expectedNumber token => exact absurd h (append_notMem_of_front (by decide))
    | missingOperator tokens => exact absurd h (append_notMem_of_front (by decide))
    | negativeRoot x => exact absurd h (append_notMem_of_front (by decide))
    -- What these texts begin with depends on a number.
    | rootNotFinite x =>
        refine absurd h (append_notMem_of_behind ?_)
        change ∀ text ∈ _, ¬ " has no finite result".toList <:+ _
        decide
    | resultNotFinite op left right =>
        refine absurd h (append_notMem_of_behind ?_)
        change ∀ text ∈ _, ¬ " has no finite result".toList <:+ _
        decide
    | notFinite x =>
        refine absurd h (append_notMem_of_behind ?_)
        change ∀ text ∈ _, ¬ " is not a finite number".toList <:+ _
        decide

namespace Bracket

theorem nested_of_dyck {tokens : List Token} (h : Dyck tokens) : Nested tokens := by
  induction h with
  | nil => exact .nil
  | pair _ _ ihinner ihbehind => exact .pair ihinner ihbehind

theorem dyck_bracketsOf_of_nested {tokens : List Token} (h : Nested tokens) :
    Dyck (bracketsOf tokens) := by
  induction h with
  | nil => exact .nil
  | @token token rest htoken _ ih =>
      rw [bracketsOf, List.filter_cons_of_neg (ne_true_of_eq_false htoken)]
      exact ih
  | @pair inner behind _ _ ihinner ihbehind =>
      have hbrackets : bracketsOf (.opening :: (inner ++ .closing :: behind)) =
          .opening :: bracketsOf inner ++ .closing :: bracketsOf behind := by
        change Token.opening :: (inner ++ .closing :: behind).filter Token.isBracket = _
        rw [List.filter_append]
        rfl
      rw [hbrackets]
      exact .pair ihinner ihbehind

theorem isBalancedFrom_bracketsOf (depth : Nat) (tokens : List Token) :
    isBalancedFrom depth (bracketsOf tokens) = isBalancedFrom depth tokens := by
  induction tokens generalizing depth with
  | nil => rfl
  | cons token rest ih =>
      cases token with
      | number x => exact ih depth
      | operator op => exact ih depth
      | opening => exact ih (depth + 1)
      | closing =>
          cases depth with
          | zero => rfl
          | succ depth => exact ih depth

theorem isBalanced_iff_dyck {tokens : List Token} :
    isBalanced tokens ↔ Dyck (bracketsOf tokens) := by
  constructor
  · intro h
    exact dyck_bracketsOf_of_nested (nested_iff_isBalanced.mpr h)
  · intro h
    rw [isBalanced, ← isBalancedFrom_bracketsOf]
    exact nested_iff_isBalanced.mp (nested_of_dyck h)

section

variable (value : List Token → Outcome Float)

/-- Every bracket that the walk comes to, and that is closed behind it, has a value. -/
def PairsResolve (tokens : List Token) : Prop :=
  ∀ before behind segment outer waiting, tokens = before ++ .opening :: behind →
    (walk value ⟨[], []⟩ behind.reverse).result = .ok ⟨segment, outer :: waiting⟩ →
      ∃ x, (value segment).result = .ok x

/-- A walk comes to the front, or it stops at a bracket that is not closed, or at
one that is closed and has no value. -/
theorem walk_cases (tokens : List Token) :
    (∃ place, (walk value ⟨[], []⟩ tokens.reverse).result = .ok place) ∨
      (∃ before behind segment, tokens = before ++ .opening :: behind ∧
        (walk value ⟨[], []⟩ behind.reverse).result = .ok ⟨segment, []⟩ ∧
        (walk value ⟨[], []⟩ tokens.reverse).result = .error .unmatchedOpening) ∨
      ∃ before behind segment outer waiting fault, tokens = before ++ .opening :: behind ∧
        (walk value ⟨[], []⟩ behind.reverse).result = .ok ⟨segment, outer :: waiting⟩ ∧
        (value segment).result = .error fault ∧
        (walk value ⟨[], []⟩ tokens.reverse).result = .error fault := by
  induction tokens with
  | nil => exact .inl ⟨⟨[], []⟩, rfl⟩
  | cons token rest ih =>
      rw [List.reverse_cons]
      rcases ih with ⟨⟨segment, waiting⟩, hplace⟩ |
        ⟨before, behind, segment, rfl, hbehind, hfault⟩ |
        ⟨before, behind, segment, outer, waiting, fault, rfl, hbehind, hvalue, hfault⟩
      · rw [walk_result_append hplace]
        by_cases htoken : token.isBracket = false
        · refine .inl ⟨⟨token :: segment, waiting⟩, ?_⟩
          rw [walk_token value _ htoken]
          rfl
        cases token with
        | number x => exact absurd rfl htoken
        | operator op => exact absurd rfl htoken
        | closing => exact .inl ⟨⟨[], segment :: waiting⟩, rfl⟩
        | opening =>
            cases waiting with
            | nil => exact .inr (.inl ⟨[], rest, segment, rfl, hplace, rfl⟩)
            | cons outer waiting =>
                rw [walk, Outcome.result_bind]
                rcases hvalue : (value segment).result with fault | x
                · exact .inr (.inr
                    ⟨[], rest, segment, outer, waiting, fault, rfl, hplace, hvalue, rfl⟩)
                · exact .inl ⟨⟨.number x :: outer, waiting⟩, rfl⟩
      · exact .inr (.inl ⟨token :: before, behind, segment, rfl, hbehind,
          walk_result_append_of_error hfault _⟩)
      · exact .inr (.inr ⟨token :: before, behind, segment, outer, waiting, fault, rfl,
          hbehind, hvalue, walk_result_append_of_error hfault _⟩)

theorem unbalanced_of_walk_opening {behind : List Token} {segment : List Token}
    (h : (walk value ⟨[], []⟩ behind.reverse).result = .ok ⟨segment, []⟩)
    (before : List Token) :
    isBalanced (before ++ .opening :: behind) = false := by
  rw [← isBalancedFrom_append_opening before 0]
  apply isBalancedFrom_append_congr
  intro depth
  rw [isBalancedFrom, isBalancedFrom_of_walk value h]
  rfl

theorem walk_cases_of_pairsResolve {tokens : List Token}
    (h : PairsResolve value tokens) :
    (∃ place, (walk value ⟨[], []⟩ tokens.reverse).result = .ok place) ∨
      isBalanced tokens = false ∧
        (walk value ⟨[], []⟩ tokens.reverse).result = .error .unmatchedOpening := by
  rcases walk_cases value tokens with
    hplace | ⟨before, behind, segment, rfl, hbehind, hfault⟩ |
    ⟨before, behind, segment, outer, waiting, fault, heq, hbehind, hfault, -⟩
  · exact .inl hplace
  · exact .inr ⟨unbalanced_of_walk_opening value hbehind before, hfault⟩
  · obtain ⟨x, hx⟩ := h before behind segment outer waiting heq hbehind
    rw [hfault] at hx
    contradiction

theorem isBalanced_iff_walk {tokens : List Token} (hpairs : PairsResolve value tokens) :
    isBalanced tokens ↔
      ∃ segment, (walk value ⟨[], []⟩ tokens.reverse).result = .ok ⟨segment, []⟩ := by
  constructor
  · intro hbalanced
    rcases walk_cases_of_pairsResolve value hpairs with
      ⟨⟨segment, waiting⟩, hplace⟩ | ⟨hunbalanced, -⟩
    · obtain rfl : waiting = [] := (isBalanced_iff_of_walk value hplace).mp hbalanced
      exact ⟨segment, hplace⟩
    · rw [hunbalanced] at hbalanced
      contradiction
  · rintro ⟨segment, hplace⟩
    exact (isBalanced_iff_of_walk value hplace).mpr rfl

theorem result_resolveWith_of_pairsResolve {tokens : List Token}
    (h : isBalanced tokens = false) (hpairs : PairsResolve value tokens) :
    (resolveWith value tokens).result = .error .unmatchedOpening ∨
      (resolveWith value tokens).result = .error .unmatchedClosing := by
  rcases walk_cases_of_pairsResolve value hpairs with
    ⟨⟨segment, waiting⟩, hplace⟩ | ⟨-, hfault⟩
  · cases waiting with
    | nil =>
        rw [(isBalanced_iff_of_walk value hplace).mpr rfl] at h
        contradiction
    | cons outer waiting => exact .inr (result_resolveWith_of_walk hplace)
  · exact .inl (result_resolveWith_of_walk_error hfault)

theorem unbalanced_of_result_resolveWith
    (hvalue : ∀ segment, (value segment).FailsWith fun fault => ¬ fault.OfBrackets)
    {tokens : List Token} {fault : Fault} (hfault : fault.OfBrackets)
    (h : (resolveWith value tokens).result = .error fault) :
    isBalanced tokens = false := by
  rcases walk_cases value tokens with ⟨⟨segment, waiting⟩, hplace⟩ |
    ⟨before, behind, segment, rfl, hbehind, -⟩ |
    ⟨before, behind, segment, outer, waiting, cause, -, -, hcause, hwalk⟩
  · apply eq_false_of_ne_true
    intro hbalanced
    obtain rfl : waiting = [] := (isBalanced_iff_of_walk value hplace).mp hbalanced
    rw [result_resolveWith_of_walk hplace] at h
    exact hvalue segment fault h hfault
  · exact unbalanced_of_walk_opening value hbehind before
  · rw [result_resolveWith_of_walk_error hwalk] at h
    obtain rfl := Except.error.inj h
    exact absurd hfault (hvalue segment cause hcause)

end

end Bracket

open Calculator.Bracket

/-- Token sequences are balanced by the count from the left if their brackets are a
Dyck word, and if the walk from the right, when every segment has a value, closes
every bracket and leaves none open. So evaluation tells a missing bracket only where
one is missing, and it does so unless a segment has no value. -/
theorem isBalanced_iff_matched (tokens : List Token) (precision : Precision) :
    (isBalanced tokens ↔ Dyck (bracketsOf tokens)) ∧
    (∀ value : List Token → Outcome Float, (∀ segment, ∃ x, (value segment).result = .ok x) →
      (isBalanced tokens ↔
        ∃ segment, (walk value ⟨[], []⟩ tokens.reverse).result = .ok ⟨segment, []⟩) ∧
      (isBalanced tokens ↔ ∃ x, (resolveWith value tokens).result = .ok x)) ∧
    (∀ fault, (evaluate precision tokens).result = .error fault →
      fault.detail ∈ ["unmatched opening bracket", "unmatched closing bracket"] →
        isBalanced tokens = false) ∧
    (isBalanced tokens = false → PairsResolve reduce tokens →
      (evaluate precision tokens).result = .error .unmatchedOpening ∨
        (evaluate precision tokens).result = .error .unmatchedClosing) := by
  refine ⟨isBalanced_iff_dyck, ?_, ?_, ?_⟩
  · intro value hvalue
    have hpairs : PairsResolve value tokens := fun _ _ segment _ _ _ _ => hvalue segment
    have hwalk := isBalanced_iff_walk value hpairs
    refine ⟨hwalk, ?_, ?_⟩
    · intro hbalanced
      obtain ⟨segment, hplace⟩ := hwalk.mp hbalanced
      rw [result_resolveWith_of_walk hplace]
      exact hvalue segment
    · rintro ⟨x, hx⟩
      apply eq_true_of_ne_false
      intro hunbalanced
      rcases result_resolveWith_of_pairsResolve value hunbalanced hpairs with hfault | hfault
      · rw [hfault] at hx
        contradiction
      · rw [hfault] at hx
        contradiction
  · intro fault hfault hdetail
    have hreduce (segment : List Token) :
        (reduce segment).FailsWith fun fault => ¬ fault.OfBrackets :=
      fun cause hcause => (reduce_failsWith segment cause hcause).not_ofBrackets
    exact unbalanced_of_result_resolveWith reduce hreduce
      (Fault.ofBrackets_iff_detail.mpr hdetail) (result_evaluate_eq_error_iff.mp hfault)
  · intro hunbalanced hpairs
    rw [result_evaluate_eq_error_iff, result_evaluate_eq_error_iff]
    exact result_resolveWith_of_pairsResolve reduce hunbalanced hpairs

/-- In `)(1)` the count stops at the first bracket, which the walk comes to behind
the pair. -/
theorem isBalanced_iff_matched_pair :
    isBalanced [.closing, .opening, .number 1, .closing] = false ∧
      ¬ Dyck (bracketsOf [.closing, .opening, .number 1, .closing]) ∧
      (¬ ∃ x, (resolveWith (fun _ => pure 0)
        [.closing, .opening, .number 1, .closing]).result = .ok x) ∧
      ((evaluate .standard [.closing, .opening, .number 1, .closing]).result =
          .error .unmatchedOpening ∨
        (evaluate .standard [.closing, .opening, .number 1, .closing]).result =
          .error .unmatchedClosing) ∧
      (evaluate .standard [.opening, .number 1]).result = .error .unmatchedOpening ∧
      isBalanced [.opening, .number 1] = false := by
  have hone : (reduce [.number 1]).result = .ok 1 := by
    have hfinite : (1 : Float).isFinite := by decide
    rw [reduce_number]
    exact checkFinite_eq_ok_iff.mpr ⟨rfl, hfinite⟩
  have hpairs : PairsResolve reduce [.closing, .opening, .number 1, .closing] := by
    intro before behind segment outer waiting heq hplace
    have hbehind : behind = [.number 1, .closing] := by
      rcases before with _ | ⟨first, _ | ⟨second, _ | ⟨third, _ | ⟨fourth, before⟩⟩⟩⟩ <;>
        simp at heq
      exact heq.2.symm
    subst hbehind
    have hwalk : (walk reduce ⟨[], []⟩ [.closing, .number 1]).result =
        .ok ⟨[.number 1], [[]]⟩ := rfl
    obtain rfl : [.number 1] = segment :=
      congrArg Place.segment (Except.ok.inj (hwalk.symm.trans hplace))
    exact ⟨1, hone⟩
  obtain ⟨hdyck, hscan, -, hfault⟩ :=
    isBalanced_iff_matched [.closing, .opening, .number 1, .closing] .standard
  have hunbalanced : isBalanced [.closing, .opening, .number 1, .closing] = false := rfl
  have hnone : ¬ isBalanced [.closing, .opening, .number 1, .closing] :=
    ne_true_of_eq_false hunbalanced
  have hopen : (evaluate .standard [.opening, .number 1]).result =
      .error .unmatchedOpening := rfl
  have hmissing := (isBalanced_iff_matched [.opening, .number 1] .standard).2.2.1
  refine ⟨hunbalanced, fun h => hnone (hdyck.mpr h), fun h => hnone ?_,
    hfault hunbalanced hpairs, hopen, hmissing _ hopen (by decide)⟩
  exact (hscan (fun _ => pure 0) fun _ => ⟨0, rfl⟩).2.mpr h

end Calculator
