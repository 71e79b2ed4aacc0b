import Calculator.Proofs.Admission
import Calculator.Proofs.FirstFailure
import Calculator.Shape

namespace Calculator

open Calculator.Bracket

namespace Shape

/-- No operand stands directly behind a number: neither a number nor a root. -/
def Separated (tokens : List Token) : Prop :=
  ∀ before x next after, tokens = before ++ .number x :: next :: after →
    next.isNumber = false ∧ next ≠ .operator .root

theorem separated_nil : Separated [] := by
  intro before x next after hsplit
  exact absurd hsplit.symm (List.append_ne_nil_of_right_ne_nil _ (List.cons_ne_nil _ _))

theorem separated_cons_iff {token : Token} {rest : List Token} :
    Separated (token :: rest) ↔
      (∀ x next after, token = .number x → rest = next :: after →
        next.isNumber = false ∧ next ≠ .operator .root) ∧ Separated rest := by
  constructor
  · intro h
    refine ⟨?_, ?_⟩
    · rintro x next after rfl rfl
      exact h [] x next after rfl
    · rintro before x next after rfl
      exact h (token :: before) x next after rfl
  · rintro ⟨htoken, hrest⟩ before x next after hsplit
    rcases before with _ | ⟨first, before⟩
    · obtain ⟨rfl, rfl⟩ := List.cons.inj hsplit
      exact htoken x next after rfl rfl
    · obtain ⟨rfl, rfl⟩ := List.cons.inj hsplit
      exact hrest before x next after rfl

section Accepted

/-- What a look at neighbours finds of tokens without brackets and without
operands side by side. -/
structure Regular (tokens : List Token) : Prop where
  bracketFree : BracketFree tokens
  separated : Separated tokens
  nonempty : tokens ≠ []
  leading : leading? tokens = none
  trailing : trailing? tokens = none
  consecutive : consecutive? tokens = none

namespace Regular

variable {rest : List Token}

theorem of_operator {op : Operator} (hfree : BracketFree rest)
    (hseparated : Separated rest) (htrailing : trailing? (.operator op :: rest) = none)
    (hconsecutive : consecutive? (.operator op :: rest) = none) : Regular rest := by
  have hne : rest ≠ [] := by
    rintro rfl
    contradiction
  obtain ⟨hleading, hrest⟩ := consecutive?_cons_eq_none.mp hconsecutive
  refine ⟨hfree, hseparated, hne, ?_, ?_, hrest⟩
  · exact hleading.resolve_left (Option.some_ne_none op)
  · rw [← trailing?_append [.operator op] hne]
    exact htrailing

theorem of_root (h : Regular (.operator .root :: rest)) : Regular rest :=
  of_operator (bracketFree_cons.mp h.bracketFree).2 (separated_cons_iff.mp h.separated).2
    h.trailing h.consecutive

theorem of_number {x : Float} (h : Regular (.number x :: rest)) :
    rest = [] ∨ ∃ op behind, rest = .operator (.binary op) :: behind ∧
    Regular behind := by
  rcases rest with _ | ⟨next, behind⟩
  · exact .inl rfl
  · obtain ⟨hfree, hbehindFree⟩ :=
      bracketFree_cons.mp (bracketFree_cons.mp h.bracketFree).2
    obtain ⟨hnext, hseparated⟩ := separated_cons_iff.mp h.separated
    obtain ⟨hnumber, hroot⟩ := hnext x next behind rfl rfl
    have htrailing := h.trailing
    rw [← List.singleton_append,
      trailing?_append _ (List.cons_ne_nil next behind)] at htrailing
    have hconsecutive := (consecutive?_cons_eq_none.mp h.consecutive).2
    rcases next with y | (op | _) | _ | _
    · contradiction
    · exact .inr ⟨op, behind, rfl,
        of_operator hbehindFree (separated_cons_iff.mp hseparated).2 htrailing hconsecutive⟩
    · exact absurd rfl hroot
    · contradiction
    · contradiction

end Regular

theorem flat_root {tokens : List Token} (h : Flat tokens) :
    Flat (.operator .root :: tokens) := by
  cases h with
  | operand hoperand => exact .operand (.root hoperand)
  | join op hoperand hrest => exact .join op (.root hoperand) hrest

theorem flat_of_regular {tokens : List Token} (h : Regular tokens) : Flat tokens := by
  induction hlength : tokens.length using Nat.strongRecOn generalizing tokens with
  | ind length ih =>
      subst hlength
      rcases tokens with _ | ⟨x | (op | _) | _ | _, rest⟩
      · exact absurd rfl h.nonempty
      · rcases h.of_number with rfl | ⟨op, behind, rfl, hbehind⟩
        · exact .operand (.number x)
        · exact .join op (.number x) (ih _ (by simp) hbehind rfl)
      · exact absurd h.leading (Option.some_ne_none op)
      · exact flat_root (ih _ (Nat.lt_succ_self _) h.of_root rfl)
      · exact absurd (bracketFree_cons.mp h.bracketFree).1 (by decide)
      · exact absurd (bracketFree_cons.mp h.bracketFree).1 (by decide)

end Accepted

section Derivation

theorem exists_tree_of_flatOperand {tokens : List Token} (h : FlatOperand tokens) :
    ∃ tree, Derives 4 tokens tree := by
  induction h with
  | number x => exact ⟨.number x, .number x⟩
  | root _ ih =>
      obtain ⟨inner, hinner⟩ := ih
      exact ⟨.root inner, .root hinner⟩

/-- An operation with an operand can be added behind an expression. It takes its
place among the last operands, above all operations of a lower precedence. -/
theorem exists_tree_append {level : Nat} {front operand : List Token} {tree last : Tree}
    {op : Operation} (h : Derives level front tree) (hlevel : level ≤ op.precedence)
    (hoperand : Derives 4 operand last) :
    ∃ next, Derives level (front ++ .operator (.binary op) :: operand) next := by
  have hlast : Derives (op.precedence + 1) operand last :=
    derives_of_operand hoperand (Nat.succ_pos _) (precedence_lt_four op)
  -- An operation of the level of the expression has all of it as its left operand.
  have hjoin {tokens : List Token} {left : Tree} (hleft : Derives op.precedence tokens left) :
      ∃ next, Derives op.precedence (tokens ++ .operator (.binary op) :: operand) next :=
    ⟨_, .binary hleft hlast⟩
  induction h with
  | number x => exact absurd (precedence_lt_four op) (Nat.not_lt.mpr hlevel)
  | bracket => exact absurd (precedence_lt_four op) (Nat.not_lt.mpr hlevel)
  | root => exact absurd (precedence_lt_four op) (Nat.not_lt.mpr hlevel)
  | @binary first leftTokens rightTokens left right hleft hright ihleft ihright =>
      rcases Nat.eq_or_lt_of_le hlevel with heq | hlt
      · rw [heq]
        apply hjoin
        rw [← heq]
        exact .binary hleft hright
      · obtain ⟨next, hnext⟩ := ihright hlt
        rw [List.append_assoc, List.cons_append]
        exact ⟨_, .binary hleft hnext⟩
  | @lift level tokens tree hmem hderives ih =>
      rcases Nat.eq_or_lt_of_le hlevel with rfl | hlt
      · exact hjoin (.lift hmem hderives)
      · obtain ⟨next, hnext⟩ := ih hlt
        exact ⟨next, .lift hmem hnext⟩

theorem exists_tree_append_flat {front behind : List Token} {tree : Tree}
    (op : Operation) (hfront : Derives 1 front tree) (hbehind : Flat behind) :
    ∃ next, Derives 1 (front ++ .operator (.binary op) :: behind) next := by
  have hlevel (op : Operation) : 1 ≤ op.precedence :=
    (Operator.binary op).precedence_pos
  induction hbehind generalizing front tree op with
  | operand hoperand =>
      obtain ⟨last, hlast⟩ := exists_tree_of_flatOperand hoperand
      exact exists_tree_append hfront (hlevel op) hlast
  | @join operand rest second hoperand _ ih =>
      obtain ⟨last, hlast⟩ := exists_tree_of_flatOperand hoperand
      obtain ⟨next, hnext⟩ := exists_tree_append hfront (hlevel op) hlast
      have hrest := ih second hnext
      rwa [List.append_assoc, List.cons_append] at hrest

theorem exists_tree_of_flat {tokens : List Token} (h : Flat tokens) :
    ∃ tree, Derives 1 tokens tree := by
  cases h with
  | operand hoperand =>
      obtain ⟨tree, htree⟩ := exists_tree_of_flatOperand hoperand
      exact ⟨tree, derives_one htree⟩
  | join op hoperand hrest =>
      obtain ⟨tree, htree⟩ := exists_tree_of_flatOperand hoperand
      exact exists_tree_append_flat op (derives_one htree) hrest

end Derivation

theorem accepts_iff_flat {tokens : List Token} (hfree : BracketFree tokens)
    (hseparated : Separated tokens) : accepts tokens ↔ Flat tokens := by
  constructor
  · intro h
    obtain ⟨hnonempty, hleading, htrailing, hconsecutive, -⟩ := accepts_iff.mp h
    exact flat_of_regular ⟨hfree, hseparated, hnonempty, hleading, htrailing,
      hconsecutive⟩
  · intro h
    obtain ⟨tree, hderives⟩ := exists_tree_of_flat h
    exact accepts_of_faultless (faultless_of_derives hderives)

end Shape

/-- The faults that numbers are to blame for: a division by zero, the root of a
negative number, and a result that is not finite. -/
inductive Fault.Arithmetic : Fault → Prop
  | divisionByZero : Arithmetic .divisionByZero
  | negativeRoot (x : Float) : Arithmetic (.negativeRoot x)
  | resultNotFinite (op : Operation) (left right : Float) :
      Arithmetic (.resultNotFinite op left right)

theorem Tree.Fails.arithmetic {part : Tree} {fault : Fault} (h : part.Fails fault) :
    fault.Arithmetic := by
  cases h with
  | negativeRoot => exact .negativeRoot _
  | divisionByZero => exact .divisionByZero
  | resultNotFinite => exact .resultNotFinite _ _ _

theorem arithmetic_of_resolve {tokens : List Token} {tree : Tree} {fault : Fault}
    (h : Derives 1 tokens tree) (hfinite : AllFinite tokens)
    (herror : (resolve tokens).result = .error fault) : fault.Arithmetic := by
  obtain ⟨site, hearliest⟩ := exists_earliest_of_resolve h hfinite herror
  rw [← tokens_of_derives h] at hfinite
  obtain ⟨part, hfirst⟩ := Tree.firstFailure_of_earliest hfinite hearliest
  exact hfirst.fails.arithmetic

theorem evaluateSegment_of_bracketFree {tokens : List Token} (h : BracketFree tokens)
    (precision : Precision) :
    evaluateSegment precision tokens = evaluate precision tokens := by
  have hnone : ¬ tokens.any Token.isBracket := by
    intro hany
    obtain ⟨token, hmem, htoken⟩ := List.any_eq_true.mp hany
    rw [h token hmem] at htoken
    contradiction
  rw [evaluateSegment, if_neg hnone, evaluate, resolve_of_bracketFree h]

/-- Tokens without brackets and without operands side by side have the shape of an
expression exactly if they are one. Then, if their numbers are finite, they have a
value, or the fault is one that the numbers are to blame for. -/
theorem accepts_iff_flat_of_separated {tokens : List Token} (hfree : BracketFree tokens)
    (hseparated : Shape.Separated tokens) :
    (Shape.accepts tokens ↔ Shape.Flat tokens) ∧
      (Shape.accepts tokens → AllFinite tokens → ∀ precision,
        (∃ r, (evaluateSegment precision tokens).result = .ok r) ∨
          ∃ fault, (evaluateSegment precision tokens).result = .error fault ∧
            fault.Arithmetic) := by
  have hiff := Shape.accepts_iff_flat hfree hseparated
  refine ⟨hiff, ?_⟩
  intro haccepts hfinite precision
  obtain ⟨tree, hderives⟩ := Shape.exists_tree_of_flat (hiff.mp haccepts)
  rw [evaluateSegment_of_bracketFree hfree, result_evaluate]
  rcases hvalue : (resolve tokens).result with fault | x
  · exact .inr ⟨fault, rfl, arithmetic_of_resolve hderives hfinite hvalue⟩
  · exact .inl ⟨_, rfl⟩

/-- In `√-1÷0` the numbers are to blame, as in every expression of its shape without
a value. -/
theorem accepts_iff_flat_of_separated_root :
    Shape.Flat [.operator .root, .number (-1), .operator (.binary .div), .number 0] ∧
      ((∃ r, (evaluateSegment .standard
          [.operator .root, .number (-1), .operator (.binary .div), .number 0]).result =
            .ok r) ∨
        ∃ fault, (evaluateSegment .standard
          [.operator .root, .number (-1), .operator (.binary .div), .number 0]).result =
            .error fault ∧ fault.Arithmetic) := by
  have hfree : BracketFree
      [.operator .root, .number (-1), .operator (.binary .div), .number 0] := by
    simp [BracketFree, Token.isBracket]
  have hseparated : Shape.Separated
      [.operator .root, .number (-1), .operator (.binary .div), .number 0] := by
    simp [Shape.separated_cons_iff, Shape.separated_nil, Token.isNumber]
  have hfinite : AllFinite
      [.operator .root, .number (-1), .operator (.binary .div), .number 0] := by
    rintro x (_ | ⟨_, _ | ⟨_, _ | ⟨_, _ | ⟨_, ⟨⟩⟩⟩⟩⟩)
    · decide
    · decide
  obtain ⟨hiff, hvalue⟩ := accepts_iff_flat_of_separated hfree hseparated
  exact ⟨hiff.mp rfl, hvalue rfl hfinite .standard⟩

end Calculator
