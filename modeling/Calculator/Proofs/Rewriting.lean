import Calculator.Proofs.Accounting
import Calculator.Proofs.InPlace
import Calculator.Proofs.SafeReduction
import Mathlib.Logic.Relation

/-!
A reduction as a rewriting of tokens.

Whatever a segment is turned into, it comes from the segment by rewriting a root or
an operation to its value. No rewriting makes a bracket, and none changes how many
more numbers than operations there are. A pass takes out the operators of its
precedence and keeps the order of those below it, so that in the later passes no
root is left, and at the end nothing but numbers.
-/

namespace Calculator

open Relation (ReflTransGen)
open Calculator.Bracket

/-- A root of a number, or an operation between two numbers, gives way to its value. -/
inductive Rewrites : List Token → List Token → Prop
  | root (front behind : List Token) {x y : Float} : squareRoot x = .ok y →
      Rewrites (front ++ .operator .root :: .number x :: behind) (front ++ .number y :: behind)
  | operation (front behind : List Token) {op : Operation} {left right value : Float} :
      op.apply left right = .ok value →
        Rewrites (front ++ .number left :: .operator (.binary op) :: .number right :: behind)
          (front ++ .number value :: behind)

/-- How many more numbers than operations there are. -/
def excess (tokens : List Token) : Int :=
  tokens.countP Token.isNumber - tokens.countP Token.isBinary

section Excess

variable (front rest : List Token)

theorem excess_append : excess (front ++ rest) = excess front + excess rest := by
  rw [excess, excess, excess, List.countP_append, List.countP_append]
  omega

theorem excess_number_cons (x : Float) :
    excess (.number x :: rest) = excess rest + 1 := by
  rw [excess, excess, List.countP_cons_of_pos rfl,
    List.countP_cons_of_neg Bool.false_ne_true]
  omega

theorem excess_root_cons : excess (.operator .root :: rest) = excess rest := by
  rw [excess, excess, List.countP_cons_of_neg Bool.false_ne_true,
    List.countP_cons_of_neg Bool.false_ne_true]

theorem excess_binary_cons (op : Operation) :
    excess (.operator (.binary op) :: rest) = excess rest - 1 := by
  rw [excess, excess, List.countP_cons_of_neg Bool.false_ne_true,
    List.countP_cons_of_pos rfl]
  omega

end Excess

namespace Cursor

variable {precedence : Nat} {cursor next : Cursor}

theorem eq_of_step_at_end (hrest : cursor.rest = [])
    (h : (cursor.step precedence).result = .ok next) : cursor = next := by
  obtain ⟨done, rest⟩ := cursor
  obtain rfl : rest = [] := hrest
  exact Except.ok.inj h

theorem Leaves.operatorsOf_at_end {left : List Operator}
    (h : cursor.Leaves precedence left)
    (hrest : cursor.rest = []) : operatorsOf cursor.tokens = left := by
  rw [← h.operators, Cursor.tokens, hrest]
  simp [withoutPrecedence]

end Cursor

namespace Rewrites

variable {tokens next : List Token}

theorem excess_eq (h : Rewrites tokens next) : excess next = excess tokens := by
  cases h with
  | root front behind _ =>
      rw [excess_append, excess_append, excess_number_cons, excess_root_cons,
        excess_number_cons]
  | operation front behind _ =>
      rw [excess_append, excess_append, excess_number_cons, excess_number_cons,
        excess_binary_cons, excess_number_cons]
      omega

theorem bracketFree (h : Rewrites tokens next) (hfree : BracketFree tokens) :
    BracketFree next := by
  cases h with
  | root front behind _ =>
      rw [bracketFree_append, bracketFree_cons] at hfree ⊢
      exact ⟨hfree.1, rfl, (bracketFree_cons.mp hfree.2.2).2⟩
  | operation front behind _ =>
      rw [bracketFree_append, bracketFree_cons, bracketFree_cons,
        bracketFree_cons] at hfree
      obtain ⟨hfront, -, -, -, hbehind⟩ := hfree
      exact bracketFree_append.mpr ⟨hfront, bracketFree_cons.mpr ⟨rfl, hbehind⟩⟩

theorem of_takeRoots (front behind : List Token) {count : Nat} {x y : Float}
    (h : takeRoots count x = .ok y) :
    ReflTransGen Rewrites
      (front ++ (List.replicate count (.operator .root) ++ .number x :: behind))
      (front ++ .number y :: behind) := by
  induction count generalizing front y with
  | zero =>
      obtain rfl := Except.ok.inj h
      exact .refl
  | succ count ih =>
      rw [takeRoots] at h
      rcases hroots : takeRoots count x with fault | z
      · rw [hroots] at h
        contradiction
      · rw [hroots] at h
        have hinner := ih (front ++ [.operator .root]) hroots
        rw [List.append_assoc, List.append_assoc] at hinner
        exact hinner.tail (.root front behind h)

theorem of_operand (front : List Token) {rest behind : List Token} {x : Float}
    (h : (operand rest).result = .ok (x, behind)) :
    ReflTransGen Rewrites (front ++ rest) (front ++ .number x :: behind) := by
  obtain ⟨count, y, rfl, hroots⟩ := exists_roots_of_operand h
  exact of_takeRoots front behind hroots

theorem of_step {precedence : Nat} {cursor next : Cursor}
    (h : (cursor.step precedence).result = .ok next) :
    ReflTransGen Rewrites cursor.tokens next.tokens := by
  by_cases hrest : cursor.rest = []
  · rw [Cursor.eq_of_step_at_end hrest h]
  · obtain ⟨done, rest⟩ := cursor
    rcases Cursor.step_cases hrest h with ⟨token, behind, rfl, -, rfl⟩ |
      ⟨-, x, behind, hoperand, rfl⟩ |
      ⟨op, x, y, value, before, tokens, behind, -, rfl, rfl, hoperand, hvalue, rfl⟩
    · rw [Cursor.tokens_cons]
      exact .refl
    · rw [Cursor.tokens_cons]
      exact of_operand done.reverse hoperand
    · have hright :=
        of_operand (before.reverse ++ [.number x, .operator (.binary op)]) hoperand
      rw [List.append_assoc, List.append_assoc] at hright
      rw [Cursor.tokens_cons, Cursor.tokens_cons]
      exact hright.tail (.operation before.reverse behind hvalue)

end Rewrites

section Reducing

variable {segment : List Token} {precedence : Nat} {cursor : Cursor}

theorem rewrites_of_reduces (h : Reduces segment precedence cursor) :
    ReflTransGen Rewrites segment cursor.tokens := by
  induction h with
  | start => exact .refl
  | step _ hstep ih => exact ih.trans (Rewrites.of_step hstep)
  | @operand _ done behind rest op right _ _ hoperand ih =>
      have hright :=
        Rewrites.of_operand (done.reverse ++ [.operator (.binary op)]) hoperand
      rw [List.append_assoc, List.append_assoc] at hright
      exact ih.trans hright
  | next _ _ _ ih => exact ih

theorem excess_of_rewrites {tokens : List Token}
    (h : ReflTransGen Rewrites segment tokens) :
    excess tokens = excess segment := by
  induction h with
  | refl => rfl
  | tail _ hstep ih => rw [hstep.excess_eq, ih]

theorem bracketFree_of_rewrites {tokens : List Token}
    (h : ReflTransGen Rewrites segment tokens)
    (hfree : BracketFree segment) : BracketFree tokens := by
  induction h with
  | refl => exact hfree
  | tail _ hstep ih => exact hstep.bracketFree ih

/-- The operators of a segment below a precedence. -/
def operatorsBelow (precedence : Nat) (segment : List Token) : List Operator :=
  (operatorsOf segment).filter fun op => op.precedence < precedence

theorem withoutPrecedence_cons {op : Operation} (h : op.precedence = precedence)
    (others : List Operator) :
    withoutPrecedence precedence (.binary op :: others) =
      withoutPrecedence precedence others := by
  refine List.filter_cons_of_neg ?_
  simp [h]

theorem withoutPrecedence_operatorsBelow (precedence : Nat) (segment : List Token) :
    withoutPrecedence precedence (operatorsBelow (precedence + 1) segment) =
      operatorsBelow precedence segment := by
  rw [withoutPrecedence, operatorsBelow, List.filter_filter, operatorsBelow]
  refine List.filter_congr fun op _ => ?_
  rw [← Bool.decide_and, decide_eq_decide]
  omega

theorem operatorsBelow_highest (segment : List Token) :
    operatorsBelow (Operator.highestPrecedence + 1) segment = operatorsOf segment := by
  refine List.filter_eq_self.mpr fun op _ => ?_
  exact decide_eq_true (Nat.lt_succ_of_le op.precedence_le_highest)

/-- At every place that a pass comes to, the operators below its precedence are
those of the segment, and none above it is left. -/
theorem leaves_of_reduces (h : Reduces segment precedence cursor) :
    precedence ≤ 3 ∧ cursor.Leaves precedence (operatorsBelow precedence segment) := by
  induction h with
  | start =>
      refine ⟨Nat.le_refl 3, fun op _ => op.precedence_le_highest, ?_⟩
      rw [← withoutPrecedence_operatorsBelow, operatorsBelow_highest]
      rfl
  | @step precedence cursor next _ hstep ih =>
      obtain ⟨hprecedence, hleaves⟩ := ih
      refine ⟨hprecedence, ?_⟩
      by_cases hrest : cursor.rest = []
      · rwa [← Cursor.eq_of_step_at_end hrest hstep]
      · exact Cursor.leaves_of_step hprecedence hleaves hrest hstep
  | @operand precedence done behind rest op right _ hop hoperand ih =>
      obtain ⟨hprecedence, hle, hoperators⟩ := ih
      obtain ⟨heq, hleRest⟩ := withoutPrecedence_operand
        (fun other hmem => hle other (List.mem_cons_of_mem _ hmem)) hprecedence hoperand
      refine ⟨hprecedence, ?_, ?_⟩
      · intro other hmem
        rcases List.mem_cons.mp hmem with rfl | hmem
        · exact hle _ List.mem_cons_self
        · exact hleRest other hmem
      · -- The operation in front is of the precedence of the pass, so it is not among
        -- those left.
        rw [← hoperators, operatorsOf_operator_cons, operatorsOf_operator_cons,
          operatorsOf_number_cons, withoutPrecedence_cons hop, withoutPrecedence_cons hop, heq]
  | @next precedence cursor _ _ hrest ih =>
      obtain ⟨hprecedence, hleaves⟩ := ih
      have hbelow := hleaves.operatorsOf_at_end hrest
      refine ⟨Nat.le_of_succ_le hprecedence, ?_, ?_⟩
      · intro op hmem
        rw [Cursor.start, hbelow, operatorsBelow, List.mem_filter] at hmem
        exact Nat.le_of_lt_succ (of_decide_eq_true hmem.2)
      · rw [← withoutPrecedence_operatorsBelow, ← hbelow]
        rfl

theorem operatorsOf_of_reduces (h : Reduces segment precedence cursor)
    (hrest : cursor.rest = []) :
    operatorsOf cursor.tokens = operatorsBelow precedence segment :=
  (leaves_of_reduces h).2.operatorsOf_at_end hrest

/-- No root is left in the passes for the operations below the powers. -/
theorem root_not_mem_of_reduces (h : Reduces segment precedence cursor)
    (hlt : precedence < 3) :
    .operator .root ∉ cursor.tokens := by
  obtain ⟨-, hle, hoperators⟩ := leaves_of_reduces h
  intro hmem
  rcases List.mem_append.mp hmem with hmem | hmem
  · have hbelow : Operator.root ∈ operatorsBelow precedence segment := by
      rw [← hoperators]
      exact List.mem_append_left _ (mem_operatorsOf.mpr hmem)
    exact absurd (of_decide_eq_true (List.mem_filter.mp hbelow).2) (Nat.not_lt.mpr hlt.le)
  · exact absurd (hle .root (mem_operatorsOf.mpr hmem)) (Nat.not_le.mpr hlt)

end Reducing

theorem isNumber_of_operatorsOf_eq_nil {tokens : List Token}
    (hfree : BracketFree tokens)
    (hoperators : operatorsOf tokens = []) : ∀ token ∈ tokens, token.isNumber := by
  intro token hmem
  cases token with
  | number x => rfl
  | operator op =>
      rw [← mem_operatorsOf, hoperators] at hmem
      exact absurd hmem List.not_mem_nil
  | opening => exact absurd hmem hfree.opening_not_mem
  | closing => exact absurd hmem hfree.closing_not_mem

theorem excess_numbers {tokens : List Token} (h : ∀ token ∈ tokens, token.isNumber) :
    excess tokens = tokens.length := by
  have hnone : tokens.countP Token.isBinary = 0 := by
    refine List.countP_eq_zero.mpr fun token hmem => ?_
    have htoken := h token hmem
    cases token with
    | number x => exact Bool.false_ne_true
    | operator op => contradiction
    | opening => contradiction
    | closing => contradiction
  rw [excess, hnone, List.countP_eq_length.mpr h]
  omega

theorem rooted_not_mem_log_pass {tokens : List Token} (h : .operator .root ∉ tokens)
    (precedence : Nat) (x root : Float) :
    .rooted x root ∉ (pass precedence tokens).log := by
  intro hmem
  have hreduced : some (.operator .root) ∈ reductions (pass precedence tokens).log :=
    Multiset.mem_coe.mpr (List.mem_map_of_mem hmem)
  have howed := Multiset.mem_of_le (passFrom_accounts precedence (.start tokens)).le hreduced
  obtain ⟨token, htoken, heq⟩ := List.mem_map.mp (Multiset.mem_coe.mp howed)
  obtain rfl := Option.some.inj heq
  exact h (List.mem_filter.mp htoken).1

/-- Each pass over a segment takes out the operators of its precedence, makes none,
and keeps the order of those below it. So no root is left for the later passes to
take, an operation is never carried out with a root, and nothing but numbers is left
in the end, as many as there were more than operations. -/
theorem passes_keep_lower_operators {segment : List Token}
    (hfree : BracketFree segment) :
    (∀ powers, (pass 3 segment).result = .ok powers →
      operatorsOf powers = (operatorsOf segment).filter (fun op => op.precedence < 3) ∧
      (∀ x root, .rooted x root ∉ (pass 2 powers).log) ∧
      ∀ products, (pass 2 powers).result = .ok products →
        operatorsOf products = (operatorsOf segment).filter (fun op => op.precedence < 2) ∧
        (∀ x root, .rooted x root ∉ (pass 1 products).log) ∧
        ∀ sums, (pass 1 products).result = .ok sums →
          (∀ token ∈ sums, token.isNumber) ∧
          sums.length + segment.countP Token.isBinary = segment.countP Token.isNumber) ∧
    (∀ precedence cursor, Reduces segment precedence cursor → precedence < 3 →
      .operator .root ∉ cursor.tokens) ∧
    ∀ precedence place row, InPlace.stepAt precedence place row ≠ .error .rootAsOperation := by
  refine ⟨?_, fun _ _ => root_not_mem_of_reduces, InPlace.stepAt_ne_rootAsOperation⟩
  intro powers hpowers
  obtain ⟨afterPowers, hreduces, hrest, rfl⟩ := exists_reduces_of_pass .start hpowers
  have hnext := Reduces.next hreduces (by decide) hrest
  have hroot := root_not_mem_of_reduces hnext (by decide)
  refine ⟨operatorsOf_of_reduces hreduces hrest, rooted_not_mem_log_pass hroot 2, ?_⟩
  intro products hproducts
  obtain ⟨afterProducts, hreduces, hrest, rfl⟩ := exists_reduces_of_pass hnext hproducts
  have hnext := Reduces.next hreduces (by decide) hrest
  have hroot := root_not_mem_of_reduces hnext (by decide)
  refine ⟨operatorsOf_of_reduces hreduces hrest, rooted_not_mem_log_pass hroot 1, ?_⟩
  intro sums hsums
  obtain ⟨afterSums, hreduces, hrest, rfl⟩ := exists_reduces_of_pass hnext hsums
  have hrewrites := rewrites_of_reduces hreduces
  have hoperators : operatorsOf afterSums.tokens = [] := by
    rw [operatorsOf_of_reduces hreduces hrest]
    refine List.filter_eq_nil_iff.mpr fun op _ hop => ?_
    exact absurd (of_decide_eq_true hop) (Nat.not_lt.mpr op.precedence_pos)
  have hnumbers :=
    isNumber_of_operatorsOf_eq_nil (bracketFree_of_rewrites hrewrites hfree)
    hoperators
  refine ⟨hnumbers, ?_⟩
  have hexcess := excess_of_rewrites hrewrites
  rw [excess_numbers hnumbers, excess] at hexcess
  omega

/-- In `2×√4-1` the product and the difference are left after the root is
taken, and then the difference. Of the three numbers, with two operations
between them, one is left. -/
theorem passes_keep_lower_operators_difference :
    ∃ powers products,
      (pass 3 [.number 2, .operator (.binary .mul), .operator .root, .number 4,
          .operator (.binary .sub), .number 1]).result = .ok powers ∧
        operatorsOf powers = [.binary .mul, .binary .sub] ∧
        (pass 2 powers).result = .ok products ∧ operatorsOf products = [.binary .sub] ∧
        (pass 1 products).result = .ok [.number 3] ∧
        (.operator .root ∉ powers ∧ .operator .root ∉ products) ∧
        [Token.number 3].length + 2 = 3 := by
  have hfree : BracketFree [.number 2, .operator (.binary .mul), .operator .root, .number 4,
      .operator (.binary .sub), .number 1] := by
    simp [BracketFree, Token.isBracket]
  have hvalue : (Tree.binary .sub (.binary .mul (.number 2) (.root (.number 4)))
      (.number 1)).value = .ok 3 := by
    have hroot : squareRoot 4 = .ok 2 :=
      squareRoot_eq_ok_iff.mpr ⟨by decide, by decide +kernel, by decide +kernel⟩
    have hproduct : Operation.mul.apply 2 2 = .ok 4 :=
      apply_eq_ok_iff.mpr ⟨by decide, by decide +kernel, by decide +kernel⟩
    have hdifference : Operation.sub.apply 4 1 = .ok 3 :=
      apply_eq_ok_iff.mpr ⟨by decide, by decide +kernel, by decide +kernel⟩
    refine Tree.value_binary_eq_ok.mpr ⟨4, 1, Tree.value_binary_eq_ok.mpr ?_, rfl,
      hdifference⟩
    exact ⟨2, 2, rfl, Tree.value_root_eq_ok.mpr ⟨4, rfl, hroot⟩, hproduct⟩
  have hleft : Derives Operation.sub.precedence
      [.number 2, .operator (.binary .mul), .operator .root, .number 4]
      (.binary .mul (.number 2) (.root (.number 4))) := by
    have htwo : Derives Operation.mul.precedence [.number 2] (.number 2) :=
      derives_of_operand (.number 2) (by decide) (by decide)
    have hroot : Derives (Operation.mul.precedence + 1) [.operator .root, .number 4]
        (.root (.number 4)) :=
      derives_of_operand (.root (.number 4)) (by decide) (by decide)
    exact derives_one (.binary htwo hroot)
  have hone : Derives (Operation.sub.precedence + 1) [.number 1] (.number 1) :=
    derives_of_operand (.number 1) (by decide) (by decide)
  have hreduce :
      (reduce [.number 2, .operator (.binary .mul), .operator .root, .number 4,
      .operator (.binary .sub), .number 1]).result = .ok 3 :=
    (result_reduce_of_value (.binary hleft hone) hfree hvalue).trans
      (checkFinite_eq_ok_iff.mpr ⟨rfl, by decide⟩)
  obtain ⟨powers, products, hpowers, hproducts, hsums, -⟩ :=
    exists_passes_of_reduce hreduce
  obtain ⟨hpasses, hroot, -⟩ := passes_keep_lower_operators hfree
  obtain ⟨hpowersOperators, -, hpasses⟩ := hpasses powers hpowers
  obtain ⟨hproductsOperators, -, hpasses⟩ := hpasses products hproducts
  obtain ⟨afterPowers, hreduces, hrest, rfl⟩ := exists_reduces_of_pass .start hpowers
  have hnext := Reduces.next hreduces (by decide) hrest
  obtain ⟨afterProducts, hreduces, hrest, rfl⟩ := exists_reduces_of_pass hnext hproducts
  refine ⟨_, _, hpowers, hpowersOperators, hproducts, hproductsOperators, hsums, ?_,
    (hpasses _ hsums).2⟩
  exact ⟨hroot 2 (.start afterPowers.tokens) hnext (by decide),
    hroot 2 afterProducts hreduces (by decide)⟩

end Calculator
