import Calculator.Shape
import Calculator.Tree

namespace Calculator

theorem precedence_lt_four (op : Operation) : op.precedence < 4 := by
  cases op <;> decide

theorem mem_levels_iff {level : Nat} : level ∈ [1, 2, 3] ↔ 1 ≤ level ∧ level < 4 := by
  simp only [List.mem_cons, List.not_mem_nil, or_false]
  omega

theorem derives_four_cases {tokens : List Token} {tree : Tree}
    (h : Derives 4 tokens tree) :
    (∃ x, tokens = [.number x] ∧ tree = .number x) ∨
      (∃ inside inner, tokens = .opening :: inside ++ [.closing] ∧ tree = .bracket inner ∧
        Derives 1 inside inner) ∨
      ∃ inside inner, tokens = .operator .root :: inside ∧ tree = .root inner ∧
        Derives 4 inside inner := by
  generalize hlevel : 4 = level at h
  cases h with
  | number x => exact .inl ⟨x, rfl, rfl⟩
  | bracket hinner => exact .inr (.inl ⟨_, _, rfl, rfl, hinner⟩)
  | root hinner => exact .inr (.inr ⟨_, _, rfl, rfl, hinner⟩)
  | binary => exact absurd hlevel.symm (Nat.ne_of_lt (precedence_lt_four _))
  | lift hmem => subst hlevel; contradiction

theorem derives_lower_cases {level : Nat} {tokens : List Token} {tree : Tree}
    (h : Derives level tokens tree) (hlevel : level < 4) :
    (∃ op leftTokens rightTokens left right, Operation.precedence op = level ∧
        tokens = leftTokens ++ .operator (.binary op) :: rightTokens ∧
        tree = .binary op left right ∧ Derives level leftTokens left ∧
        Derives (level + 1) rightTokens right) ∨
      Derives (level + 1) tokens tree := by
  cases h with
  | number => exact absurd hlevel (Nat.lt_irrefl 4)
  | bracket => exact absurd hlevel (Nat.lt_irrefl 4)
  | root => exact absurd hlevel (Nat.lt_irrefl 4)
  | binary hleft hright => exact .inl ⟨_, _, _, _, _, rfl, rfl, rfl, hleft, hright⟩
  | lift hmem hderives => exact .inr hderives

theorem level_bounds {level : Nat} {tokens : List Token} {tree : Tree}
    (h : Derives level tokens tree) : 1 ≤ level ∧ level ≤ 4 := by
  induction h with
  | number x => decide
  | bracket _ _ => decide
  | root _ _ => decide
  | @binary op => cases op <;> decide
  | lift hlevel _ _ =>
      obtain ⟨hlow, hhigh⟩ := mem_levels_iff.mp hlevel
      exact ⟨hlow, Nat.le_of_lt hhigh⟩

theorem derives_of_le {low high : Nat} {tokens : List Token} {tree : Tree}
    (h : Derives high tokens tree) (hlow : 1 ≤ low) (hle : low ≤ high)
    (hhigh : high ≤ 4) :
    Derives low tokens tree := by
  obtain ⟨steps, rfl⟩ := Nat.exists_eq_add_of_le hle
  induction steps generalizing low with
  | zero => exact h
  | succ steps ih =>
      have hlevel : low ∈ [1, 2, 3] := mem_levels_iff.mpr ⟨hlow, by omega⟩
      have hnext : Derives (low + 1 + steps) tokens tree := by
        rw [Nat.add_right_comm]
        exact h
      exact .lift hlevel (ih (by omega) hnext (by omega) (by omega))

/-- An operand has every level. -/
theorem derives_of_operand {level : Nat} {tokens : List Token} {tree : Tree}
    (h : Derives 4 tokens tree) (hlow : 1 ≤ level) (hhigh : level ≤ 4) :
    Derives level tokens tree :=
  derives_of_le h hlow hhigh (Nat.le_refl 4)

theorem derives_one {level : Nat} {tokens : List Token} {tree : Tree}
    (h : Derives level tokens tree) : Derives 1 tokens tree :=
  derives_of_le h (Nat.le_refl 1) (level_bounds h).1 (level_bounds h).2

theorem derives_binary_numbers (op : Operation) (x y : Float) :
    Derives op.precedence [.number x, .operator (.binary op), .number y]
      (.binary op (.number x) (.number y)) :=
  .binary
    (derives_of_operand (.number x) (Operator.binary op).precedence_pos
      (Nat.le_of_lt (precedence_lt_four op)))
    (derives_of_operand (.number y) (Nat.succ_pos _) (precedence_lt_four op))

namespace Bracket

/-- How many more brackets a token sequence opens than it closes. -/
def depth : List Token → Int
  | [] => 0
  | .opening :: rest => depth rest + 1
  | .closing :: rest => depth rest - 1
  | _ :: rest => depth rest

@[simp] theorem depth_append (front behind : List Token) :
    depth (front ++ behind) = depth front + depth behind := by
  fun_induction depth front with
  | case1 => exact (Int.zero_add _).symm
  | case2 rest ih =>
      rw [List.cons_append, depth, ih]
      omega
  | case3 rest ih =>
      rw [List.cons_append, depth, ih]
      omega
  | case4 token rest hopening hclosing ih =>
      rw [List.cons_append, depth, ih]
      · exact hopening
      · exact hclosing

@[simp] theorem depth_operator_cons (op : Operator) (rest : List Token) :
    depth (.operator op :: rest) = depth rest := rfl

theorem depth_eq_zero_of_derives {level : Nat} {tokens : List Token} {tree : Tree}
    (h : Derives level tokens tree) : depth tokens = 0 := by
  induction h with
  | number x => rfl
  | bracket hinner ih =>
      rw [depth_append, depth, ih]
      rfl
  | root hinner ih => exact ih
  | binary hleft hright ihleft ihright =>
      rw [depth_append, depth_operator_cons, ihleft, ihright]
      rfl
  | lift hlevel hderives ih => exact ih

theorem depth_le_zero_of_derives {level : Nat} {tokens : List Token} {tree : Tree}
    (h : Derives level tokens tree) {front behind : List Token}
    (htokens : tokens = front ++ behind) : depth behind ≤ 0 := by
  induction h generalizing front behind with
  | number x =>
      rcases List.singleton_eq_append_iff.mp htokens with ⟨-, rfl⟩ | ⟨-, rfl⟩
      · exact Int.le_refl 0
      · exact Int.le_refl 0
  | bracket hinner ih =>
      rcases List.append_eq_append_iff.mp htokens with
        ⟨middle, rfl, hmiddle⟩ | ⟨middle, hmiddle, rfl⟩
      · rcases List.singleton_eq_append_iff.mp hmiddle with ⟨-, rfl⟩ | ⟨-, rfl⟩
        · decide
        · decide
      · rcases List.cons_eq_append_iff.mp hmiddle with ⟨rfl, rfl⟩ | ⟨rest, rfl, hrest⟩
        · rw [depth_append, depth, depth_eq_zero_of_derives hinner]
          decide
        · have := ih hrest
          rw [depth_append]
          simp only [depth]
          omega
  | root hinner ih =>
      rcases List.cons_eq_append_iff.mp htokens with ⟨rfl, rfl⟩ | ⟨rest, rfl, hrest⟩
      · exact Int.le_of_eq (depth_eq_zero_of_derives (.root hinner))
      · exact ih hrest
  | binary hleft hright ihleft ihright =>
      have hzero := depth_eq_zero_of_derives hright
      rcases List.append_eq_append_iff.mp htokens with
        ⟨middle, rfl, hmiddle⟩ | ⟨middle, rfl, rfl⟩
      · rcases List.cons_eq_append_iff.mp hmiddle with ⟨rfl, rfl⟩ | ⟨rest, rfl, hrest⟩
        · exact Int.le_of_eq hzero
        · exact ihright hrest
      · have := ihleft rfl
        rw [depth_append, depth_operator_cons, hzero]
        omega
  | lift hlevel hderives ih => exact ih htokens

/-- An operation of a lower precedence than its level stands inside a bracket. -/
theorem depth_lt_zero_of_derives {level : Nat} {tokens : List Token} {tree : Tree}
    (h : Derives level tokens tree) {front behind : List Token} {op : Operation}
    (htokens : tokens = front ++ .operator (.binary op) :: behind)
    (hlevel : op.precedence < level) : depth behind < 0 := by
  induction h generalizing front behind with
  | number x =>
      rcases List.singleton_eq_append_iff.mp htokens with ⟨-, h⟩ | ⟨-, h⟩ <;> cases h
  | @bracket inside inner hinner ih =>
      rcases List.append_eq_append_iff.mp htokens with
        ⟨middle, rfl, hmiddle⟩ | ⟨middle, hmiddle, hbehind⟩
      · rcases List.singleton_eq_append_iff.mp hmiddle with ⟨-, h⟩ | ⟨-, h⟩ <;> cases h
      · rcases List.cons_eq_append_iff.mp hmiddle with ⟨rfl, rfl⟩ | ⟨rest, rfl, hrest⟩
        · cases hbehind
        · rcases List.cons_eq_append_iff.mp hbehind with ⟨rfl, hbehind⟩ | ⟨last, rfl, rfl⟩
          · cases hbehind
          · have hinside : inside = (rest ++ [.operator (.binary op)]) ++ last := by
              rw [hrest, List.append_assoc]
              rfl
            have := depth_le_zero_of_derives hinner hinside
            rw [depth_append]
            simp only [depth]
            omega
  | root hinner ih =>
      rcases List.cons_eq_append_iff.mp htokens with ⟨rfl, h⟩ | ⟨rest, rfl, hrest⟩
      · cases h
      · exact ih hrest hlevel
  | @binary other leftTokens rightTokens left right hleft hright ihleft ihright =>
      rcases List.append_eq_append_iff.mp htokens with
        ⟨middle, rfl, hmiddle⟩ | ⟨middle, rfl, hmiddle⟩
      · rcases List.cons_eq_append_iff.mp hmiddle with ⟨rfl, h⟩ | ⟨rest, rfl, hrest⟩
        · obtain ⟨heq, -⟩ := List.cons.inj h
          cases heq
          exact absurd hlevel (Nat.lt_irrefl _)
        · exact ihright hrest (Nat.lt_succ_of_lt hlevel)
      · rcases List.cons_eq_append_iff.mp hmiddle with ⟨rfl, h⟩ | ⟨rest, rfl, rfl⟩
        · obtain ⟨heq, -⟩ := List.cons.inj h
          cases heq
          exact absurd hlevel (Nat.lt_irrefl _)
        · have := ihleft rfl hlevel
          rw [depth_append, depth_operator_cons, depth_eq_zero_of_derives hright]
          omega
  | lift _ _ ih => exact ih htokens (Nat.lt_succ_of_lt hlevel)

theorem isBalancedFrom_append_of_derives {level : Nat} {tokens : List Token}
    {tree : Tree} (h : Derives level tokens tree) (depth : Nat) (rest : List Token) :
    isBalancedFrom depth (tokens ++ rest) = isBalancedFrom depth rest := by
  induction h generalizing depth rest with
  | number x => rfl
  | @bracket inside tree hinner ih =>
      have htokens : .opening :: inside ++ [.closing] ++ rest =
          .opening :: (inside ++ .closing :: rest) := by simp
      rw [htokens, isBalancedFrom, ih]
      rfl
  | root hinner ih => exact ih depth rest
  | binary hleft hright ihleft ihright =>
      rw [List.append_assoc, ihleft]
      exact ihright depth rest
  | lift hlevel hderives ih => exact ih depth rest

theorem isBalanced_of_derives {level : Nat} {tokens : List Token} {tree : Tree}
    (h : Derives level tokens tree) : isBalanced tokens := by
  have hbalanced := isBalancedFrom_append_of_derives h 0 []
  rwa [List.append_nil] at hbalanced

end Bracket

/-- Two ways to split a token sequence at operations of one level, with an
expression of the next level behind each, are the same. -/
theorem split_unique {op other : Operation}
    {leftTokens rightTokens leftOther rightOther : List Token} {right rightTree : Tree}
    (hprecedence : op.precedence = other.precedence)
    (hright : Derives (op.precedence + 1) rightTokens right)
    (hother : Derives (op.precedence + 1) rightOther rightTree)
    (h : leftTokens ++ .operator (.binary op) :: rightTokens =
      leftOther ++ .operator (.binary other) :: rightOther) :
    leftTokens = leftOther ∧ op = other ∧ rightTokens = rightOther := by
  rcases List.append_eq_append_iff.mp h with ⟨middle, rfl, hmiddle⟩ | ⟨middle, rfl, hmiddle⟩
  · rcases List.cons_eq_append_iff.mp hmiddle with ⟨rfl, hcons⟩ | ⟨rest, rfl, hrest⟩
    · obtain ⟨heq, rfl⟩ := List.cons.inj hcons
      cases heq
      exact ⟨(List.append_nil _).symm, rfl, rfl⟩
    · have hlt := Bracket.depth_lt_zero_of_derives hright hrest
        (by rw [← hprecedence]; exact Nat.lt_succ_self _)
      rw [Bracket.depth_eq_zero_of_derives hother] at hlt
      exact absurd hlt (Int.lt_irrefl 0)
  · rcases List.cons_eq_append_iff.mp hmiddle with ⟨rfl, hcons⟩ | ⟨rest, rfl, hrest⟩
    · obtain ⟨heq, rfl⟩ := List.cons.inj hcons
      cases heq
      exact ⟨List.append_nil _, rfl, rfl⟩
    · have hlt := Bracket.depth_lt_zero_of_derives hother hrest (Nat.lt_succ_self _)
      rw [Bracket.depth_eq_zero_of_derives hright] at hlt
      exact absurd hlt (Int.lt_irrefl 0)

theorem not_derives_succ {op : Operation} {leftTokens rightTokens : List Token}
    {right tree : Tree} {level : Nat} (hright : Derives level rightTokens right) :
    ¬ Derives (op.precedence + 1) (leftTokens ++ .operator (.binary op) :: rightTokens)
      tree := by
  intro h
  have hlt := Bracket.depth_lt_zero_of_derives h rfl (Nat.lt_succ_self _)
  rw [Bracket.depth_eq_zero_of_derives hright] at hlt
  exact Int.lt_irrefl 0 hlt

theorem derives_unique {level : Nat} {tokens : List Token} {tree other : Tree}
    (h : Derives level tokens tree) (hother : Derives level tokens other) :
    tree = other := by
  induction h generalizing other with
  | number x =>
      rcases derives_four_cases hother with ⟨y, heq, rfl⟩ | ⟨_, _, heq, -⟩ | ⟨_, _, heq, -⟩
      · cases heq
        rfl
      · cases heq
      · cases heq
  | bracket hinner ih =>
      rcases derives_four_cases hother with
        ⟨_, heq, -⟩ | ⟨_, inner, heq, rfl, hsame⟩ | ⟨_, _, heq, -⟩
      · cases heq
      · rw [List.append_cancel_right (List.cons.inj heq).2] at ih
        rw [ih hsame]
      · cases heq
  | root hinner ih =>
      rcases derives_four_cases hother with
        ⟨_, heq, -⟩ | ⟨_, _, heq, -⟩ | ⟨_, inner, heq, rfl, hsame⟩
      · cases heq
      · cases heq
      · rw [(List.cons.inj heq).2] at ih
        rw [ih hsame]
  | @binary op leftTokens rightTokens left right hleft hright ihleft ihright =>
      rcases derives_lower_cases hother (precedence_lt_four op) with
        ⟨op', _, _, left', right', hprecedence, heq, rfl, hleft', hright'⟩ | hhigher
      · obtain ⟨rfl, rfl, rfl⟩ := split_unique hprecedence.symm hright hright' heq
        rw [ihleft hleft', ihright hright']
      · exact absurd hhigher (not_derives_succ hright)
  | @lift level tokens tree hlevel hderives ih =>
      rcases derives_lower_cases hother (mem_levels_iff.mp hlevel).2 with
        ⟨op, _, _, left, right, rfl, rfl, rfl, hleft, hright⟩ | hhigher
      · exact absurd hderives (not_derives_succ hright)
      · exact ih hhigher

end Calculator
