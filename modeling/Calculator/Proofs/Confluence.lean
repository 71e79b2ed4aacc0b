import Calculator.Proofs.Collapse
import Calculator.Proofs.Walk
import Mathlib.Logic.Relation

namespace Calculator

open Relation (ReflTransGen)

theorem result_evaluate (precision : Precision) (tokens : List Token) :
    (evaluate precision tokens).result =
      (Bracket.resolve tokens).result.map precision.round := by
  rw [evaluate, map_eq_pure_bind, Outcome.result_bind]
  rcases (Bracket.resolve tokens).result with fault | x
  · rfl
  · rfl

theorem result_evaluate_eq_error_iff {precision : Precision} {tokens : List Token}
    {fault : Fault} :
    (evaluate precision tokens).result = .error fault ↔
      (Bracket.resolve tokens).result = .error fault := by
  rw [result_evaluate]
  rcases (Bracket.resolve tokens).result with cause | x
  · rfl
  · constructor
    · intro h
      contradiction
    · intro h
      contradiction

namespace Bracket

/-- An innermost bracket of a token sequence gives way to the value of what is in it. -/
inductive Resolves : List Token → List Token → Prop
  | bracket (before behind : List Token) {inner : List Token} {x : Float} :
      BracketFree inner → (reduce inner).result = .ok x →
        Resolves (before ++ .opening :: (inner ++ .closing :: behind))
          (before ++ .number x :: behind)

theorem nested_of_bracketFree {tokens : List Token} (h : BracketFree tokens) :
    Nested tokens := by
  induction tokens with
  | nil => exact .nil
  | cons token rest ih =>
      obtain ⟨htoken, hrest⟩ := bracketFree_cons.mp h
      exact .token htoken (ih hrest)

theorem resolve_of_bracketFree {tokens : List Token} (h : BracketFree tokens) :
    resolve tokens = reduce tokens := by
  rw [resolve, resolveWith_eq_substituteWith, substituteWith_of_bracketFree h]

theorem resolve_bracket {inner : List Token} (h : Nested inner)
    (before behind : List Token) :
    resolve (before ++ .opening :: (inner ++ .closing :: behind)) =
      walk reduce ⟨[], []⟩ behind.reverse >>= fun place =>
        resolve inner >>= fun x => .record (.resolved x) >>= fun _ =>
          resolveFrom reduce (.number x :: place.segment) place.waiting before.reverse := by
  rw [resolve, resolveWith_append, reverse_bracket, walk_append, bind_assoc]
  congr 1
  funext place
  rw [walk_bracket reduce h]
  simp only [bind_assoc, pure_bind]
  rfl

theorem resolve_number (x : Float) (before behind : List Token) :
    resolve (before ++ .number x :: behind) =
      walk reduce ⟨[], []⟩ behind.reverse >>= fun place =>
        resolveFrom reduce (.number x :: place.segment) place.waiting before.reverse := by
  rw [resolve, resolveWith_append, List.reverse_cons, walk_append, bind_assoc]
  rfl

theorem result_resolve_bracket_of_ok {inner : List Token} {x : Float} (h : Nested inner)
    (hvalue : (resolve inner).result = .ok x) (before behind : List Token) :
    (resolve (before ++ .opening :: (inner ++ .closing :: behind))).result =
      (resolve (before ++ .number x :: behind)).result := by
  rw [resolve_bracket h, resolve_number, Outcome.result_bind, Outcome.result_bind]
  congr 1
  funext place
  rw [Outcome.result_bind_of_ok _ hvalue]
  rfl

theorem exists_error_resolve_bracket {inner : List Token} {fault : Fault}
    (h : Nested inner)
    (hfault : (resolve inner).result = .error fault) (before behind : List Token) :
    ∃ other, (resolve (before ++ .opening :: (inner ++ .closing :: behind))).result =
      .error other := by
  rw [resolve_bracket h, Outcome.result_bind]
  rcases (walk reduce ⟨[], []⟩ behind.reverse).result with other | place
  · exact ⟨other, rfl⟩
  · refine ⟨fault, ?_⟩
    change (resolve inner >>= _).result = _
    rw [Outcome.result_bind, hfault]
    rfl

theorem result_resolve_of_resolves {tokens next : List Token}
    (h : Resolves tokens next) :
    (resolve tokens).result = (resolve next).result := by
  obtain ⟨before, behind, hfree, hvalue⟩ := h
  rw [← resolve_of_bracketFree hfree] at hvalue
  exact result_resolve_bracket_of_ok (nested_of_bracketFree hfree) hvalue before behind

theorem result_resolve_of_reflTransGen {tokens next : List Token}
    (h : ReflTransGen Resolves tokens next) :
    (resolve tokens).result = (resolve next).result := by
  induction h with
  | refl => rfl
  | tail _ hstep ih => exact ih.trans (result_resolve_of_resolves hstep)

theorem log_evaluate_bracket {inner : List Token} {x : Float} (h : Nested inner)
    (hvalue : (resolve inner).result = .ok x) (precision : Precision) :
    (evaluate precision (.opening :: (inner ++ [.closing]))).log =
      (resolve inner).log ++ [.resolved x] := by
  have hbracket : resolve (.opening :: (inner ++ [.closing])) =
      resolve inner >>= fun y => .record (.resolved y) >>= fun _ => reduce [.number y] :=
    (resolve_bracket h [] []).trans (pure_bind _ _)
  rw [evaluate, map_eq_pure_bind, hbracket, bind_assoc, Outcome.log_bind_of_ok _ hvalue,
    bind_assoc, reduce_number, Outcome.log_bind_of_ok _ (Outcome.result_record _)]
  rcases checkFinite x with fault | y
  · rfl
  · rfl

end Bracket

open Calculator.Bracket

theorem exists_error_evaluate {tokens : List Token} (precision : Precision)
    (h : ∃ fault, (resolve tokens).result = .error fault) :
    ∃ fault, (evaluate precision tokens).result = .error fault := by
  obtain ⟨fault, hfault⟩ := h
  exact ⟨fault, result_evaluate_eq_error_iff.mpr hfault⟩

/-- A balanced bracket can be replaced by its value, which is the last thing logged
about it, and a bracket without a value leaves none to the whole. So brackets can be
resolved in every order that goes from the inside out. -/
theorem evaluate_independent_of_order (precision : Precision) :
    (∀ before inner behind : List Token, isBalanced inner →
      (∀ x, (resolve inner).result = .ok x →
        (evaluate precision (before ++ .opening :: (inner ++ .closing :: behind))).result =
            (evaluate precision (before ++ .number x :: behind)).result ∧
          (evaluate precision (.opening :: (inner ++ [.closing]))).log =
            (resolve inner).log ++ [.resolved x]) ∧
      (∀ fault, (resolve inner).result = .error fault → ∃ other,
        (evaluate precision (before ++ .opening :: (inner ++ .closing :: behind))).result =
          .error other)) ∧
    (∀ tokens next, ReflTransGen Resolves tokens next →
      (evaluate precision tokens).result = (evaluate precision next).result) ∧
    ∀ (tokens before inner behind : List Token) (fault : Fault),
      ReflTransGen Resolves tokens (before ++ .opening :: (inner ++ .closing :: behind)) →
        BracketFree inner → (reduce inner).result = .error fault →
          ∃ other, (evaluate precision tokens).result = .error other := by
  refine ⟨?_, ?_, ?_⟩
  · intro before inner behind hbalanced
    have hnested := nested_iff_isBalanced.mpr hbalanced
    constructor
    · intro x hvalue
      refine ⟨?_, log_evaluate_bracket hnested hvalue precision⟩
      rw [result_evaluate, result_evaluate, result_resolve_bracket_of_ok hnested hvalue]
    · intro fault hfault
      exact exists_error_evaluate precision
        (exists_error_resolve_bracket hnested hfault before behind)
  · intro tokens next hsteps
    rw [result_evaluate, result_evaluate, result_resolve_of_reflTransGen hsteps]
  · intro tokens before inner behind fault hsteps hfree hfault
    rw [← resolve_of_bracketFree hfree] at hfault
    apply exists_error_evaluate
    rw [result_resolve_of_reflTransGen hsteps]
    exact exists_error_resolve_bracket (nested_of_bracketFree hfree) hfault before behind

/-- In `(((1))√` the bracket around `(1)` is replaced by 1, although the first
bracket stays open. In `((1)÷0)` the bracket around 1 is replaced, and then the one
around a division by zero fails. -/
theorem evaluate_independent_of_order_nested :
    (evaluate .standard (([.opening] : List Token) ++ .opening ::
        (([.opening, .number 1, .closing] : List Token) ++
          .closing :: [.operator .root]))).result =
        (evaluate .standard
          (([.opening] : List Token) ++ .number 1 :: [.operator .root])).result ∧
      (evaluate .standard [.opening, .opening, .number 1, .closing, .closing]).result =
        (evaluate .standard [.number 1]).result ∧
      (∃ fault, (evaluate .standard
        [.opening, .number 1, .operator (.binary .div), .number 0, .closing]).result =
          .error fault) ∧
      ∃ fault, (evaluate .standard [.opening, .opening, .number 1, .closing,
        .operator (.binary .div), .number 0, .closing]).result = .error fault := by
  have hfree : BracketFree [.number 1] := by simp [BracketFree, Token.isBracket]
  have hone : (reduce [.number 1]).result = .ok 1 := by
    have hfinite : (1 : Float).isFinite := by decide
    rw [reduce_number]
    exact checkFinite_eq_ok_iff.mpr ⟨rfl, hfinite⟩
  have hinner : (resolve [.opening, .number 1, .closing]).result = .ok 1 := by
    rw [← resolve_of_bracketFree hfree] at hone
    rw [← hone]
    exact result_resolve_bracket_of_ok (nested_of_bracketFree hfree) hone [] []
  have hquotientFree :
      BracketFree [.number 1, .operator (.binary .div), .number 0] := by
    simp [BracketFree, Token.isBracket]
  have hquotient : (reduce [.number 1, .operator (.binary .div), .number 0]).result =
      .error .divisionByZero := result_reduce_div_zero 1 (by decide)
  obtain ⟨hbracket, hsteps, hfailure⟩ := evaluate_independent_of_order .standard
  have hfirst : Resolves [.opening, .opening, .number 1, .closing, .closing]
      [.opening, .number 1, .closing] := .bracket [.opening] [.closing] hfree hone
  have hsecond : Resolves [.opening, .number 1, .closing] [.number 1] :=
    .bracket [] [] hfree hone
  refine ⟨?_, ?_, ?_, ?_⟩
  · exact ((hbracket [.opening] _ [.operator .root] (by decide)).1 1 hinner).1
  · exact hsteps _ _ (.tail (.single hfirst) hsecond)
  · rw [← resolve_of_bracketFree hquotientFree] at hquotient
    exact (hbracket [] _ [] (by decide)).2 _ hquotient
  · refine hfailure _ [] _ [] _ (.single ?_) hquotientFree hquotient
    exact .bracket [.opening] [.operator (.binary .div), .number 0, .closing] hfree hone

end Calculator
