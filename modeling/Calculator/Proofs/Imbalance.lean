import Calculator.Proofs.Confluence

namespace Calculator

namespace Bracket

/-- A bracket that opens in front of `after` is closed there, and what is in it has
a value. -/
def ClosesIn (after : List Token) : Prop :=
  ∃ inner behind, after = inner ++ .closing :: behind ∧ isBalanced inner ∧
    ∃ x, (resolve inner).result = .ok x

/-- Every bracket that opens is closed, and what is in it has a value. -/
def Resolvable (tokens : List Token) : Prop :=
  ∀ before after, tokens = before ++ .opening :: after → ClosesIn after

theorem resolvable_of_append {front behind : List Token}
    (h : Resolvable (front ++ behind)) :
    Resolvable behind := by
  rintro before after rfl
  exact h (front ++ before) after (List.append_assoc _ _ _).symm

theorem resolvable_of_cons {token : Token} {rest : List Token}
    (h : Resolvable (token :: rest)) :
    Resolvable rest := by
  have hrest : Resolvable ([token] ++ rest) := h
  exact resolvable_of_append hrest

theorem exists_place_of_resolvable {tokens : List Token} (h : Resolvable tokens) :
    ∃ place, (walk reduce ⟨[], []⟩ tokens.reverse).result = .ok place := by
  induction hlength : tokens.length using Nat.strongRecOn generalizing tokens with
  | ind length ih =>
      subst hlength
      rcases tokens with _ | ⟨token, rest⟩
      · exact ⟨⟨[], []⟩, rfl⟩
      have hlt : rest.length < (token :: rest).length := Nat.lt_succ_self _
      by_cases htoken : token.isBracket = false
      · obtain ⟨place, hplace⟩ := ih _ hlt (resolvable_of_cons h) rfl
        refine ⟨⟨token :: place.segment, place.waiting⟩, ?_⟩
        rw [List.reverse_cons, walk_result_append hplace, walk_token reduce [] htoken]
        rfl
      cases token with
      | number x => exact absurd rfl htoken
      | operator op => exact absurd rfl htoken
      | closing =>
          obtain ⟨place, hplace⟩ := ih _ hlt (resolvable_of_cons h) rfl
          refine ⟨⟨[], place.segment :: place.waiting⟩, ?_⟩
          rw [List.reverse_cons, walk_result_append hplace]
          rfl
      | opening =>
          obtain ⟨inner, behind, rfl, hinner, x, hx⟩ := h [] rest rfl
          have hnested := nested_iff_isBalanced.mpr hinner
          have hbehind : Resolvable behind :=
            resolvable_of_cons (resolvable_of_append (resolvable_of_cons h))
          have hvalue : (resolveWith reduce inner).result = .ok x := hx
          obtain ⟨place, hplace⟩ := ih behind.length (by simp; omega) hbehind rfl
          refine ⟨⟨.number x :: place.segment, place.waiting⟩, ?_⟩
          rw [reverse_bracket, walk_result_append hplace, walk_bracket reduce hnested,
            Outcome.result_bind_of_ok _ hvalue]
          rfl

theorem resolvable_or_exists_obstacle (tokens : List Token) :
    Resolvable tokens ∨ ∃ before after, tokens = before ++ .opening :: after ∧
    Resolvable after ∧
      ¬ ClosesIn after := by
  induction tokens with
  | nil =>
      refine .inl fun before after h => ?_
      simp at h
  | cons token rest ih =>
      rcases ih with hrest | ⟨before, after, rfl, hafter, hobstacle⟩
      · by_cases hopens : token = .opening ∧ ¬ ClosesIn rest
        · obtain ⟨rfl, hobstacle⟩ := hopens
          exact .inr ⟨[], rest, rfl, hrest, hobstacle⟩
        · refine .inl fun before after h => ?_
          rcases List.cons_eq_append_iff.mp h with ⟨rfl, heq⟩ | ⟨others, rfl, heq⟩
          · obtain ⟨htoken, rfl⟩ := List.cons.inj heq
            exact Classical.byContradiction fun hnone => hopens ⟨htoken.symm, hnone⟩
          · exact hrest others after heq
      · exact .inr ⟨token :: before, after, rfl, hafter, hobstacle⟩

theorem result_resolve_of_fault (before : List Token) {inner behind : List Token}
    {fault : Fault} (hinner : isBalanced inner) (hbehind : Resolvable behind)
    (hfault : (resolve inner).result = .error fault) :
    (resolve (before ++ .opening :: (inner ++ .closing :: behind))).result = .error fault := by
  obtain ⟨place, hplace⟩ := exists_place_of_resolvable hbehind
  rw [resolve_bracket (nested_iff_isBalanced.mpr hinner),
    Outcome.result_bind_of_ok _ hplace, Outcome.result_bind, hfault]
  rfl

/-- A division by zero in a balanced bracket, behind which all brackets that
open can be resolved. -/
def MeetsDivisionByZero (tokens : List Token) : Prop :=
  ∃ before inner behind, tokens = before ++ .opening :: (inner ++ .closing :: behind) ∧
    isBalanced inner ∧ Resolvable behind ∧
      (resolve inner).result = .error .divisionByZero

/-- A token sequence with unbalanced brackets has no value. Either a bracket is found
to be missing, or the fault is that of a balanced bracket which is resolved before. -/
theorem result_resolve_of_unbalanced {tokens : List Token}
    (h : isBalanced tokens = false) :
    (resolve tokens).result = .error .unmatchedOpening ∨
      (resolve tokens).result = .error .unmatchedClosing ∨
      ∃ before inner behind fault,
        tokens = before ++ .opening :: (inner ++ .closing :: behind) ∧
        isBalanced inner ∧ Resolvable behind ∧ (resolve inner).result = .error fault ∧
        (resolve tokens).result = .error fault := by
  rcases resolvable_or_exists_obstacle tokens with
    htokens | ⟨before, after, rfl, hafter, hobstacle⟩
  · obtain ⟨place, hplace⟩ := exists_place_of_resolvable htokens
    have hwaiting : place.waiting ≠ [] := by
      intro hnone
      rw [(isBalanced_iff_of_walk reduce hplace).mpr hnone] at h
      contradiction
    refine .inr (.inl ?_)
    rw [resolve, result_resolveWith_of_walk hplace, finish,
      if_neg (by simpa using hwaiting)]
    rfl
  · obtain ⟨⟨segment, waiting⟩, hplace⟩ := exists_place_of_resolvable hafter
    cases waiting with
    | nil =>
        refine .inl ?_
        rw [resolve, resolveWith_append, Outcome.result_bind, List.reverse_cons,
          walk_result_append hplace]
        rfl
    | cons outer waiting =>
        have hcloses : isBalancedFrom (waiting.length + 1) after := by
          rw [isBalancedFrom_of_walk reduce hplace]
          exact beq_self_eq_true _
        obtain ⟨inner, behind, rfl, hnested, -⟩ :=
          exists_nested_of_isBalancedFrom_succ hcloses
        have hinner := nested_iff_isBalanced.mp hnested
        rcases hvalue : (resolve inner).result with fault | x
        · have hbehind : Resolvable behind :=
            resolvable_of_cons (resolvable_of_append hafter)
          exact .inr (.inr ⟨before, inner, behind, fault, rfl, hinner, hbehind, hvalue,
            result_resolve_of_fault before hinner hbehind hvalue⟩)
        · exact absurd ⟨inner, behind, rfl, hinner, x, hvalue⟩ hobstacle

theorem any_isBracket_of_unbalanced {tokens : List Token}
    (h : isBalanced tokens = false) :
    tokens.any Token.isBracket := by
  apply Classical.byContradiction
  intro hnone
  have hfree : BracketFree tokens := by
    intro token hmem
    apply eq_false_of_ne_true
    intro htoken
    exact hnone (List.any_eq_true.mpr ⟨token, hmem, htoken⟩)
  rw [nested_iff_isBalanced.mp (nested_of_bracketFree hfree)] at h
  contradiction

end Bracket

theorem Fault.kind_eq_invalidExpression {fault : Fault} :
    fault.kind = .invalidExpression ↔ fault ≠ .divisionByZero := by
  cases fault <;> simp [Fault.kind]

open Calculator.Bracket

/-- A token sequence with unbalanced brackets has no value. It is an invalid
expression, unless the walk meets a division by zero before it misses a bracket. -/
theorem evaluate_unbalanced {tokens : List Token} (h : isBalanced tokens = false)
    (precision : Precision) :
    (evaluateSegment precision tokens).result = .error .unmatchedClosing ∧
      ∃ fault, (evaluate precision tokens).result = .error fault ∧
        (fault.kind = .invalidExpression ↔ ¬ MeetsDivisionByZero tokens) := by
  constructor
  · rw [evaluateSegment, if_pos (Bracket.any_isBracket_of_unbalanced h)]
    rfl
  -- The fault of a bracket that is resolved is the fault of the whole, so there is at
  -- most one.
  have hexact {fault : Fault} (hfault : (resolve tokens).result = .error fault)
      (hmeets : fault = .divisionByZero → MeetsDivisionByZero tokens) :
      ∃ fault, (evaluate precision tokens).result = .error fault ∧
        (fault.kind = .invalidExpression ↔ ¬ MeetsDivisionByZero tokens) := by
    refine ⟨fault, ?_, ?_⟩
    · rw [result_evaluate, hfault]
      rfl
    · rw [Fault.kind_eq_invalidExpression]
      refine not_congr ⟨hmeets, ?_⟩
      rintro ⟨before, inner, behind, rfl, hinner, hbehind, hquotient⟩
      rw [Bracket.result_resolve_of_fault before hinner hbehind hquotient] at hfault
      exact (Except.error.inj hfault).symm
  rcases Bracket.result_resolve_of_unbalanced h with hfault | hfault |
    ⟨before, inner, behind, fault, heq, hinner, hbehind, hvalue, hfault⟩
  · exact hexact hfault Fault.noConfusion
  · exact hexact hfault Fault.noConfusion
  · refine hexact hfault ?_
    rintro rfl
    exact ⟨before, inner, behind, heq, hinner, hbehind, hvalue⟩

/-- In `(1÷0)+(1` the walk comes to the bracket that is not closed before the
division, so that the expression is invalid. -/
theorem evaluate_unbalanced_sum :
    isBalanced [.opening, .number 1, .operator (.binary .div), .number 0, .closing,
        .operator (.binary .add), .opening, .number 1] = false ∧
      (evaluateSegment .standard [.opening, .number 1, .operator (.binary .div), .number 0,
        .closing, .operator (.binary .add), .opening, .number 1]).result =
          .error .unmatchedClosing ∧
      ∃ fault, (evaluate .standard [.opening, .number 1, .operator (.binary .div), .number 0,
          .closing, .operator (.binary .add), .opening, .number 1]).result = .error fault ∧
        fault.kind = .invalidExpression ∧
        ¬ MeetsDivisionByZero [.opening, .number 1, .operator (.binary .div), .number 0,
          .closing, .operator (.binary .add), .opening, .number 1] := by
  have hunbalanced :
      isBalanced [.opening, .number 1, .operator (.binary .div), .number 0, .closing,
      .operator (.binary .add), .opening, .number 1] = false := rfl
  obtain ⟨hsegment, fault, hfault, hkind⟩ := evaluate_unbalanced hunbalanced .standard
  have hopening :
      (evaluate .standard [.opening, .number 1, .operator (.binary .div), .number 0,
      .closing, .operator (.binary .add), .opening, .number 1]).result =
        .error .unmatchedOpening := rfl
  obtain rfl := Except.error.inj (hfault.symm.trans hopening)
  exact ⟨hunbalanced, hsegment, _, hfault, rfl, hkind.mp rfl⟩

/-- In `((1÷0)` the division is carried out before the missing bracket is noticed. -/
theorem evaluate_unbalanced_quotient :
    isBalanced [.opening, .opening, .number 1, .operator (.binary .div), .number 0, .closing] =
        false ∧
      (evaluate .standard [.opening, .opening, .number 1, .operator (.binary .div), .number 0,
        .closing]).result = .error .divisionByZero := by
  have hquotient : (resolve [.number 1, .operator (.binary .div), .number 0]).result =
      .error .divisionByZero := by
    rw [Bracket.resolve_of_bracketFree (by simp [Bracket.BracketFree, Token.isBracket])]
    exact result_reduce_div_zero 1 (by decide)
  have hnone : Resolvable [] := by
    intro before after h
    simp at h
  have hfault := Bracket.result_resolve_of_fault [.opening] (by decide) hnone hquotient
  refine ⟨rfl, ?_⟩
  rw [result_evaluate]
  exact congrArg (Except.map _) hfault

end Calculator
