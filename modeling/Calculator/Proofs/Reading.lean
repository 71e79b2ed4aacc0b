import Calculator.Evaluation
import Calculator.Proofs.Pass
import Calculator.Proofs.Value
import Mathlib.Data.List.Forall2

namespace Calculator

/-- What a token stands for while an expression is evaluated. -/
def StandsFor (level : Nat) (piece : List Token) : Token → Prop
  | .number x => ∃ tree, Derives level piece tree ∧ tree.value = .ok x
  | token => piece = [token]

theorem standsFor_self (token : Token) : StandsFor 4 [token] token := by
  cases token with
  | number x => exact ⟨.number x, .number x, rfl⟩
  | operator op => rfl
  | opening => rfl
  | closing => rfl

theorem standsFor_lower {level : Nat} {piece : List Token} {token : Token}
    (hlevel : level ∈ [1, 2, 3]) (h : StandsFor (level + 1) piece token) :
    StandsFor level piece token := by
  cases token with
  | number x =>
      obtain ⟨tree, hderives, hvalue⟩ := h
      exact ⟨tree, .lift hlevel hderives, hvalue⟩
  | operator op => exact h
  | opening => exact h
  | closing => exact h

open List (Forall₂)

theorem standsFor_roots {count : Nat} {x y : Float} {rest : List Token}
    {pieces : List (List Token)}
    (h : Forall₂ (StandsFor 4) pieces
      (List.replicate count (.operator .root) ++ .number y :: rest))
    (hroots : takeRoots count y = .ok x) :
    ∃ piece others, pieces.flatten = piece ++ others.flatten ∧
      StandsFor 4 piece (.number x) ∧ Forall₂ (StandsFor 4) others rest := by
  induction count generalizing pieces x with
  | zero =>
      obtain ⟨piece, others, hpiece, hothers, rfl⟩ := List.forall₂_cons_right_iff.mp h
      obtain rfl := Except.ok.inj hroots
      exact ⟨piece, others, rfl, hpiece, hothers⟩
  | succ count ih =>
      rw [List.replicate_succ, List.cons_append] at h
      obtain ⟨root, pieces, rfl, hpieces, rfl⟩ := List.forall₂_cons_right_iff.mp h
      rw [takeRoots] at hroots
      rcases hinner : takeRoots count y with fault | z
      · rw [hinner] at hroots
        contradiction
      · rw [hinner] at hroots
        obtain ⟨piece, others, heq, ⟨tree, hderives, hvalue⟩, hothers⟩ :=
          ih hpieces hinner
        refine ⟨.operator .root :: piece, others, ?_, ⟨.root tree, .root hderives,
          Tree.value_root_eq_ok.mpr ⟨z, hvalue, hroots⟩⟩, hothers⟩
        rw [List.flatten_cons, heq]
        rfl

theorem standsFor_operand {precedence : Nat} {tokens rest : List Token} {x : Float}
    {pieces : List (List Token)} (hprecedence : precedence ≤ 3)
    (hle : ∀ op ∈ operatorsOf tokens, op.precedence ≤ precedence)
    (h : Forall₂ (StandsFor (precedence + 1)) pieces tokens)
    (hoperand : (operand tokens).result = .ok (x, rest)) :
    ∃ piece others, pieces.flatten = piece ++ others.flatten ∧
      StandsFor (precedence + 1) piece (.number x) ∧
      Forall₂ (StandsFor (precedence + 1)) others rest := by
  obtain ⟨count, y, rfl, hroots, rfl | rfl⟩ :=
    exists_roots_of_operatorsOf_le hle hprecedence hoperand
  · obtain ⟨piece, others, hpiece, hothers, rfl⟩ := List.forall₂_cons_right_iff.mp h
    obtain rfl := Except.ok.inj hroots
    exact ⟨piece, others, rfl, hpiece, hothers⟩
  · exact standsFor_roots h hroots

/-- What has been passed over stands for pieces of the level of the pass,
and what is still to come for pieces of the level above; together they make
up the original sequence. -/
structure Cursor.Reads (precedence : Nat) (original : List Token) (cursor : Cursor) :
    Prop where
  le : ∀ op ∈ operatorsOf cursor.rest, op.precedence ≤ precedence
  pieces : ∃ done rest, done.reverse.flatten ++ rest.flatten = original ∧
    Forall₂ (StandsFor precedence) done cursor.done ∧
    Forall₂ (StandsFor (precedence + 1)) rest cursor.rest

theorem Cursor.reads_of_step {precedence : Nat} {original : List Token}
    {cursor next : Cursor}
    (hlevel : precedence ∈ [1, 2, 3]) (h : cursor.Reads precedence original)
    (hrest : cursor.rest ≠ []) (hstep : (cursor.step precedence).result = .ok next) :
    next.Reads precedence original := by
  have hprecedence : precedence ≤ 3 := Nat.le_of_lt_succ (mem_levels_iff.mp hlevel).2
  have hleaves : next.Leaves precedence _ :=
    Cursor.leaves_of_step hprecedence ⟨h.le, rfl⟩ hrest hstep
  refine ⟨hleaves.le, ?_⟩
  obtain ⟨hle, done, rest, rfl, hdone, hpieces⟩ := h
  obtain ⟨doneTokens, restTokens⟩ := cursor
  rcases step_cases hrest hstep with ⟨token, behind, rfl, -, rfl⟩ |
    ⟨rfl, x, behind, hoperand, rfl⟩ |
    ⟨op, x, y, result, before, tokens, behind, rfl, rfl, rfl, hoperand, hresult, rfl⟩
  · obtain ⟨piece, others, hpiece, hothers, rfl⟩ :=
      List.forall₂_cons_right_iff.mp hpieces
    refine ⟨piece :: done, others, ?_, .cons (standsFor_lower hlevel hpiece) hdone,
      hothers⟩
    simp
  · obtain ⟨piece, others, heq, hpiece, hothers⟩ :=
      standsFor_operand hprecedence hle hpieces hoperand
    refine ⟨piece :: done, others, ?_, .cons (standsFor_lower hlevel hpiece) hdone,
      hothers⟩
    simp [heq]
  · obtain ⟨left, doneOthers, ⟨leftTree, hleft, hleftValue⟩, hdoneOthers, rfl⟩ :=
      List.forall₂_cons_right_iff.mp hdone
    obtain ⟨sign, others, rfl, hothers, rfl⟩ := List.forall₂_cons_right_iff.mp hpieces
    have hbehind : ∀ other ∈ operatorsOf tokens, other.precedence ≤ op.precedence :=
      fun other hmem => hle other (List.mem_cons_of_mem _ hmem)
    obtain ⟨right, rightOthers, heq, ⟨rightTree, hright, hrightValue⟩, hrightOthers⟩ :=
      standsFor_operand hprecedence hbehind hothers hoperand
    refine ⟨(left ++ .operator (.binary op) :: right) :: doneOthers, rightOthers, ?_,
      .cons ⟨.binary op leftTree rightTree, .binary hleft hright,
        Tree.value_binary_eq_ok.mpr ⟨x, y, hleftValue, hrightValue, hresult⟩⟩ hdoneOthers,
      hrightOthers⟩
    simp [heq]

theorem standsFor_pass {precedence : Nat} {tokens after : List Token}
    {pieces : List (List Token)} (hlevel : precedence ∈ [1, 2, 3])
    (hle : ∀ op ∈ operatorsOf tokens, op.precedence ≤ precedence)
    (hpieces : Forall₂ (StandsFor (precedence + 1)) pieces tokens)
    (h : (pass precedence tokens).result = .ok after) :
    ∃ others, others.flatten = pieces.flatten ∧
    Forall₂ (StandsFor precedence) others after := by
  have hstart : (Cursor.start tokens).Reads precedence pieces.flatten :=
    ⟨hle, [], pieces, rfl, .nil, hpieces⟩
  obtain ⟨done, ⟨-, read, rest, heq, hread, hrest⟩, rfl⟩ := passFrom_keeps
    (fun _ _ hreads hrest hstep => Cursor.reads_of_step hlevel hreads hrest hstep) hstart h
  obtain rfl := List.forall₂_nil_right_iff.mp hrest
  refine ⟨read.reverse, ?_, List.forall₂_reverse_iff.mpr hread⟩
  rw [← heq]
  simp

theorem single_eq_ok_iff {tokens : List Token} {x : Float} :
    single tokens = .ok x ↔ tokens = [.number x] ∧ x.isFinite := by
  constructor
  · intro h
    unfold single at h
    split at h
    · contradiction
    · obtain ⟨rfl, hfinite⟩ := checkFinite_eq_ok_iff.mp h
      exact ⟨rfl, hfinite⟩
    · contradiction
  · rintro ⟨rfl, hfinite⟩
    exact checkFinite_eq_ok_iff.mpr ⟨rfl, hfinite⟩

theorem exists_passes_of_reduce {tokens : List Token} {x : Float}
    (h : (reduce tokens).result = .ok x) : ∃ powers products,
      (pass 3 tokens).result = .ok powers ∧ (pass 2 powers).result = .ok products ∧
        (pass 1 products).result = .ok [.number x] ∧ x.isFinite := by
  obtain ⟨powers, hpowers, h⟩ := Outcome.exists_of_result_bind_eq_ok h
  obtain ⟨products, hproducts, h⟩ := Outcome.exists_of_result_bind_eq_ok h
  obtain ⟨sums, hsums, h⟩ := Outcome.exists_of_result_bind_eq_ok h
  obtain ⟨rfl, hfinite⟩ := single_eq_ok_iff.mp h
  exact ⟨powers, products, hpowers, hproducts, hsums, hfinite⟩

theorem exists_tree_of_standsFor {level : Nat} {pieces : List (List Token)} {x : Float}
    (hpieces : Forall₂ (StandsFor level) pieces [.number x]) :
    ∃ tree, Derives level pieces.flatten tree ∧ tree.value = .ok x := by
  obtain ⟨piece, others, ⟨tree, hderives, hvalue⟩, hothers, rfl⟩ :=
    List.forall₂_cons_right_iff.mp hpieces
  obtain rfl := List.forall₂_nil_right_iff.mp hothers
  refine ⟨tree, ?_, hvalue⟩
  rwa [List.flatten_cons, List.flatten_nil, List.append_nil]

theorem exists_tree_of_reduce {tokens : List Token} {pieces : List (List Token)}
    {x : Float}
    (hpieces : Forall₂ (StandsFor 4) pieces tokens)
    (h : (reduce tokens).result = .ok x) :
    ∃ tree, Derives 1 pieces.flatten tree ∧ tree.value = .ok x ∧ x.isFinite := by
  obtain ⟨powers, products, hpowers, hproducts, hsums, hfinite⟩ :=
    exists_passes_of_reduce h
  have hle : ∀ op ∈ operatorsOf tokens, op.precedence ≤ 3 :=
    fun op _ => op.precedence_le_highest
  have hlePowers := operatorsOf_le_of_pass (by decide) hle hpowers
  have hleProducts := operatorsOf_le_of_pass (by decide) hlePowers hproducts
  obtain ⟨powerPieces, hpowerEq, hpowerPieces⟩ :=
    standsFor_pass (by decide) hle hpieces hpowers
  obtain ⟨productPieces, hproductEq, hproductPieces⟩ :=
    standsFor_pass (by decide) hlePowers hpowerPieces hproducts
  obtain ⟨sumPieces, hsumEq, hsumPieces⟩ :=
    standsFor_pass (by decide) hleProducts hproductPieces hsums
  rw [← hpowerEq, ← hproductEq, ← hsumEq]
  obtain ⟨tree, hderives, hvalue⟩ := exists_tree_of_standsFor hsumPieces
  exact ⟨tree, hderives, hvalue, hfinite⟩

namespace Bracket

theorem exists_tree_of_resolveFrom {segment : List Token} {waiting : List (List Token)}
    {before : List Token} {pieces : List (List Token)}
    {waitingPieces : List (List (List Token))}
    {x : Float} (hpieces : Forall₂ (StandsFor 4) pieces segment)
    (hwaiting : Forall₂ (Forall₂ (StandsFor 4)) waitingPieces waiting)
    (h : (resolveFrom reduce segment waiting before).result = .ok x) :
    ∃ tree, Derives 1 (before.reverse ++ (pieces.flatten ++
        waitingPieces.flatMap fun others => .closing :: others.flatten)) tree ∧
      tree.value = .ok x ∧ x.isFinite := by
  induction before generalizing segment waiting pieces waitingPieces with
  | nil =>
      rw [resolveFrom_nil] at h
      split at h
      · rename_i hempty
        obtain rfl := List.isEmpty_iff.mp hempty
        obtain rfl := List.forall₂_nil_right_iff.mp hwaiting
        simpa using exists_tree_of_reduce hpieces h
      · contradiction
  | cons token before ih =>
      rw [List.reverse_cons, List.append_assoc, List.singleton_append]
      cases token with
      | closing => exact ih .nil (.cons hpieces hwaiting) h
      | opening =>
          cases waiting with
          | nil => contradiction
          | cons outer waiting =>
              obtain ⟨outerPieces, others, houter, hothers, rfl⟩ :=
                List.forall₂_cons_right_iff.mp hwaiting
              rw [resolveFrom_opening_cons] at h
              obtain ⟨y, hreduce, h⟩ := Outcome.exists_of_result_bind_eq_ok h
              obtain ⟨inner, hinner, hvalue, hfinite⟩ :=
                exists_tree_of_reduce hpieces hreduce
              have hbracket : StandsFor 4 (.opening :: pieces.flatten ++ [.closing])
                  (.number y) := by
                exact ⟨.bracket inner, .bracket hinner,
                  Tree.value_bracket_eq_ok.mpr ⟨hvalue, hfinite⟩⟩
              simpa using ih (.cons hbracket houter) hothers h
      | number y => exact ih (.cons (standsFor_self _) hpieces) hwaiting h
      | operator op => exact ih (.cons (standsFor_self _) hpieces) hwaiting h

theorem exists_tree_of_resolve {tokens : List Token} {x : Float}
    (h : (resolve tokens).result = .ok x) :
    ∃ tree, Derives 1 tokens tree ∧ tree.value = .ok x ∧ x.isFinite := by
  simpa using exists_tree_of_resolveFrom .nil .nil h

end Bracket

end Calculator
