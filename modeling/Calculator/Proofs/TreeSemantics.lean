import Calculator.Evaluation
import Calculator.Proofs.Collapse
import Calculator.Proofs.Reading

namespace Calculator

open Calculator.Bracket

/-- Replaces the brackets of a tree by their values, the rightmost ones first. -/
def Tree.unbracket : Tree → Outcome Tree
  | number x => return number x
  | bracket inner => do
      let inner ← inner.unbracket
      let x ← reduce inner.tokens
      .record (.resolved x)
      return number x
  | root inner => do
      let inner ← inner.unbracket
      return root inner
  | binary op left right => do
      let right ← right.unbracket
      let left ← left.unbracket
      return binary op left right

namespace Bracket

theorem resolveFrom_tree (tree : Tree) (segment : List Token)
    (waiting : List (List Token)) (before : List Token) :
    resolveFrom reduce segment waiting (tree.tokens.reverse ++ before) =
      tree.unbracket >>= fun next =>
        resolveFrom reduce (next.tokens ++ segment) waiting before := by
  induction tree generalizing segment waiting before with
  | number x => rfl
  | bracket inner ih =>
      have htokens : (Tree.bracket inner).tokens.reverse ++ before =
          .closing :: (inner.tokens.reverse ++ .opening :: before) := by simp [Tree.tokens]
      rw [htokens, resolveFrom_closing, ih, Tree.unbracket, bind_assoc]
      congr 1
      funext next
      rw [List.append_nil, resolveFrom_opening_cons, bind_assoc]
      rfl
  | root inner ih =>
      have htokens : (Tree.root inner).tokens.reverse ++ before =
          inner.tokens.reverse ++ .operator .root :: before := by simp [Tree.tokens]
      rw [htokens, ih, Tree.unbracket, bind_assoc]
      rfl
  | binary op left right ihleft ihright =>
      have htokens : (Tree.binary op left right).tokens.reverse ++ before =
          right.tokens.reverse ++
            (.operator (.binary op) :: (left.tokens.reverse ++ before)) := by
        simp [Tree.tokens]
      rw [htokens, ihright, Tree.unbracket, bind_assoc]
      congr 1
      funext rightNext
      rw [resolveFrom_token reduce _ _ _ rfl, ihleft, bind_assoc]
      congr 1
      funext leftNext
      simp [Tree.tokens]

theorem resolve_tree (tree : Tree) :
    resolve tree.tokens = tree.unbracket >>= fun next => reduce next.tokens := by
  have hwalk := resolveFrom_tree tree [] [] []
  rw [List.append_nil] at hwalk
  rw [resolve, resolveWith, hwalk]
  simp [resolveFrom_nil]

end Bracket

theorem exists_unbracket_of_value {level : Nat} {tokens : List Token} {tree : Tree}
    {x : Float} (h : Derives level tokens tree) (hvalue : tree.value = .ok x) :
    ∃ next, tree.unbracket.result = .ok next ∧ Derives level next.tokens next ∧
      BracketFree next.tokens ∧ next.value = .ok x := by
  induction h generalizing x with
  | number y =>
      exact ⟨.number y, rfl, .number y, bracketFree_cons.mpr ⟨rfl, bracketFree_nil⟩,
        hvalue⟩
  | bracket hinner ih =>
      obtain ⟨hinnerValue, hfinite⟩ := Tree.value_bracket_eq_ok.mp hvalue
      obtain ⟨next, hnext, hderives, hfree, hnextValue⟩ := ih hinnerValue
      refine ⟨.number x, ?_, .number x, bracketFree_cons.mpr ⟨rfl, bracketFree_nil⟩,
        rfl⟩
      have hreduce := (result_reduce_of_value hderives hfree hnextValue).trans
        (checkFinite_eq_ok_iff.mpr ⟨rfl, hfinite⟩)
      rw [Tree.unbracket, Outcome.result_bind_of_ok _ hnext,
        Outcome.result_bind_of_ok _ hreduce]
      rfl
  | root hinner ih =>
      obtain ⟨y, hinnerValue, hroot⟩ := Tree.value_root_eq_ok.mp hvalue
      obtain ⟨next, hnext, hderives, hfree, hnextValue⟩ := ih hinnerValue
      refine ⟨.root next, ?_, .root hderives, bracketFree_cons.mpr ⟨rfl, hfree⟩,
        Tree.value_root_eq_ok.mpr ⟨y, hnextValue, hroot⟩⟩
      rw [Tree.unbracket, Outcome.result_bind_of_ok _ hnext]
      rfl
  | binary hleft hright ihleft ihright =>
      obtain ⟨y, z, hy, hz, happly⟩ := Tree.value_binary_eq_ok.mp hvalue
      obtain ⟨left, hleftNext, hleftDerives, hleftFree, hleftValue⟩ := ihleft hy
      obtain ⟨right, hrightNext, hrightDerives, hrightFree, hrightValue⟩ := ihright hz
      refine ⟨.binary _ left right, ?_, .binary hleftDerives hrightDerives,
        bracketFree_append.mpr ⟨hleftFree, bracketFree_cons.mpr ⟨rfl, hrightFree⟩⟩,
        Tree.value_binary_eq_ok.mpr ⟨y, z, hleftValue, hrightValue, happly⟩⟩
      rw [Tree.unbracket, Outcome.result_bind_of_ok _ hrightNext,
        Outcome.result_bind_of_ok _ hleftNext]
      rfl
  | lift hlevel hderives ih =>
      obtain ⟨next, hnext, hnextDerives, hfree, hnextValue⟩ := ih hvalue
      exact ⟨next, hnext, .lift hlevel hnextDerives, hfree, hnextValue⟩

theorem result_resolve_of_value {tokens : List Token} {tree : Tree} {x : Float}
    (h : Derives 1 tokens tree) (hvalue : tree.value = .ok x) (hfinite : x.isFinite) :
    (Bracket.resolve tokens).result = .ok x := by
  obtain ⟨next, hnext, hderives, hfree, hnextValue⟩ :=
    exists_unbracket_of_value h hvalue
  rw [← tokens_of_derives h, Bracket.resolve_tree, Outcome.result_bind_of_ok _ hnext,
    result_reduce_of_value hderives hfree hnextValue]
  exact checkFinite_eq_ok_iff.mpr ⟨rfl, hfinite⟩

theorem evaluate_eq_ok {precision : Precision} {tokens : List Token} {r : Float} :
    (evaluate precision tokens).result = .ok r ↔
      ∃ x, (Bracket.resolve tokens).result = .ok x ∧ r = precision.round x := by
  rw [evaluate, map_eq_pure_bind]
  constructor
  · intro h
    obtain ⟨x, hx, h⟩ := Outcome.exists_of_result_bind_eq_ok h
    exact ⟨x, hx, (Except.ok.inj h).symm⟩
  · rintro ⟨x, hx, rfl⟩
    rw [Outcome.result_bind_of_ok _ hx]
    rfl

end Calculator
