import Calculator.Proofs.Pass
import Calculator.Proofs.Substitution
import Calculator.Proofs.Value

/-!
How the passes evaluate an expression without brackets: each pass replaces the
largest parts of its level by their values, from left to right.
-/

namespace Calculator

namespace Tree

/-- The value of a tree. Its parts are evaluated from left to right, and
every step is logged. -/
def run : Tree → Outcome Float
  | number x => return x
  | bracket inner => do
      let x ← inner.run
      .ofExcept (checkFinite x)
  | root inner => do
      let x ← inner.run
      takeRoot x
  | binary op left right => do
      let x ← left.run
      let y ← right.run
      combine op x y

theorem result_run (tree : Tree) : tree.run.result = tree.value := by
  induction tree with
  | number x => rfl
  | bracket inner ih => rw [run, value, Outcome.result_bind, ih]; rfl
  | root inner ih =>
      rw [run, value, Outcome.result_bind, ih]
      congr 1
      funext x
      exact result_takeRoot x
  | binary op left right ihleft ihright =>
      rw [run, value, Outcome.result_bind, ihleft]
      congr 1
      funext x
      rw [Outcome.result_bind, ihright]
      congr 1
      funext y
      exact result_combine op x y

/-- Replaces the largest parts of a tree that hold no operation below a
level by their values. -/
def collapse (level : Nat) : Tree → Outcome Tree
  | binary op left right =>
      if op.precedence < level then do
        let left ← left.collapse level
        let right ← right.collapse level
        return binary op left right
      else number <$> (binary op left right).run
  | tree => number <$> tree.run

theorem collapse_root (level : Nat) (inner : Tree) :
    (root inner).collapse level = number <$> (root inner).run :=
  rfl

theorem collapse_of_le {op : Operation} {level : Nat} (h : level ≤ op.precedence)
    (left right : Tree) :
    (binary op left right).collapse level = number <$> (binary op left right).run :=
  if_neg (Nat.not_lt.mpr h)

end Tree

open Calculator.Bracket

/-- A token sequence without brackets and without operators above a precedence. -/
structure Within (precedence : Nat) (tokens : List Token) : Prop where
  bracketFree : BracketFree tokens
  le : ∀ op ∈ operatorsOf tokens, op.precedence ≤ precedence

theorem within_append {precedence : Nat} {front behind : List Token} :
    Within precedence (front ++ behind) ↔ Within precedence front ∧
    Within precedence behind := by
  constructor
  · rintro ⟨hfree, hle⟩
    rw [operatorsOf_append] at hle
    obtain ⟨hfront, hbehind⟩ := bracketFree_append.mp hfree
    exact ⟨⟨hfront, fun op hmem => hle op (List.mem_append_left _ hmem)⟩,
      ⟨hbehind, fun op hmem => hle op (List.mem_append_right _ hmem)⟩⟩
  · rintro ⟨hfront, hbehind⟩
    refine ⟨bracketFree_append.mpr ⟨hfront.bracketFree, hbehind.bracketFree⟩, ?_⟩
    intro op hmem
    rw [operatorsOf_append, List.mem_append] at hmem
    rcases hmem with hmem | hmem
    · exact hfront.le op hmem
    · exact hbehind.le op hmem

theorem within_operator_cons {precedence : Nat} {op : Operator} {rest : List Token} :
    Within precedence (.operator op :: rest) ↔
      op.precedence ≤ precedence ∧ Within precedence rest := by
  constructor
  · rintro ⟨hfree, hle⟩
    obtain ⟨-, hrest⟩ := bracketFree_cons.mp hfree
    exact ⟨hle op List.mem_cons_self,
      ⟨hrest, fun other hmem => hle other (List.mem_cons_of_mem _ hmem)⟩⟩
  · rintro ⟨hop, hrest⟩
    refine ⟨bracketFree_cons.mpr ⟨rfl, hrest.bracketFree⟩, ?_⟩
    intro other hmem
    rcases List.mem_cons.mp hmem with rfl | hmem
    · exact hop
    · exact hrest.le other hmem

theorem within_number (precedence : Nat) (x : Float) : Within precedence [.number x] :=
  ⟨bracketFree_cons.mpr ⟨rfl, bracketFree_nil⟩, List.forall_mem_nil _⟩

theorem not_within_bracket {precedence : Nat} {inside : List Token} :
    ¬ Within precedence (.opening :: inside ++ [.closing]) := by
  intro h
  exact h.bracketFree.opening_not_mem List.mem_cons_self

theorem within_three {tokens : List Token} (h : BracketFree tokens) : Within 3 tokens :=
  ⟨h, fun op _ => op.precedence_le_highest⟩

theorem passFrom_of_passed {precedence : Nat} {token : Token} {done rest : List Token}
    (h : ∀ op, token = .operator op → op.precedence ≠ precedence) :
    passFrom precedence ⟨done, token :: rest⟩ = passFrom precedence ⟨token :: done, rest⟩ := by
  rw [passFrom_of_rest_ne_nil (List.cons_ne_nil _ _)]
  have hstep : Cursor.step precedence ⟨done, token :: rest⟩ =
      return ⟨token :: done, rest⟩ := by
    cases token with
    | number x => rfl
    | opening => rfl
    | closing => rfl
    | operator op =>
        have hne := h op rfl
        cases op with
        | root => exact if_neg hne
        | binary op => exact if_neg hne
  rw [hstep, pure_bind]

theorem operand_eq_run {level precedence : Nat} {tokens : List Token} {tree : Tree}
    (h : Derives level tokens tree) (hlevel : precedence < level)
    (hwithin : Within precedence tokens) (rest : List Token) :
    operand (tokens ++ rest) = tree.run >>= fun x => return (x, rest) := by
  induction h with
  | number x => rfl
  | bracket hinner ih => exact absurd hwithin not_within_bracket
  | root hinner ih =>
      obtain ⟨-, hinside⟩ := within_operator_cons.mp hwithin
      rw [List.cons_append, operand, ih hlevel hinside, Tree.run]
      simp only [bind_assoc, pure_bind]
  | binary hleft hright ihleft ihright =>
      obtain ⟨-, hright⟩ := within_append.mp hwithin
      obtain ⟨hop, -⟩ := within_operator_cons.mp hright
      exact absurd hop (Nat.not_le.mpr hlevel)
  | lift hmem hderives ih => exact ih (Nat.lt_succ_of_lt hlevel) hwithin

theorem passFrom_eq_run {level precedence : Nat} {tokens : List Token} {tree : Tree}
    (h : Derives level tokens tree) (hlevel : precedence ≤ level)
    (hprecedence : precedence ≤ 3)
    (hwithin : Within precedence tokens) (done rest : List Token) :
    passFrom precedence ⟨done, tokens ++ rest⟩ =
      tree.run >>= fun x => passFrom precedence ⟨.number x :: done, rest⟩ := by
  induction h generalizing done rest with
  | number x =>
      apply passFrom_of_passed
      rintro op ⟨⟩
  | bracket hinner ih => exact absurd hwithin not_within_bracket
  | @root inside inner hinner ih =>
      obtain ⟨hroot, -⟩ := within_operator_cons.mp hwithin
      obtain rfl := Nat.le_antisymm hprecedence hroot
      have hoperand := operand_eq_run (.root hinner) (Nat.lt_succ_self 3) hwithin rest
      have hstep : Cursor.step 3 ⟨done, .operator .root :: inside ++ rest⟩ =
          (Tree.root inner).run >>= fun x => return ⟨.number x :: done, rest⟩ := by
        rw [List.cons_append] at hoperand ⊢
        simp [Cursor.step, Operator.precedence, hoperand]
      rw [passFrom_of_rest_ne_nil (by simp), hstep, bind_assoc]
      simp only [pure_bind]
  | @binary op leftTokens rightTokens left right hleft hright ihleft ihright =>
      obtain ⟨hleftWithin, hrightWithin⟩ := within_append.mp hwithin
      obtain ⟨(hop : op.precedence ≤ precedence), hrightWithin⟩ :=
        within_operator_cons.mp hrightWithin
      obtain rfl := Nat.le_antisymm hop hlevel
      have hoperand := operand_eq_run hright (Nat.lt_succ_self _) hrightWithin rest
      have hstep (x : Float) : Cursor.step op.precedence
          ⟨.number x :: done, .operator (.binary op) :: (rightTokens ++ rest)⟩ =
          right.run >>= fun y => combine op x y >>= fun z =>
            return ⟨.number z :: done, rest⟩ := by
        simp [Cursor.step, hoperand]
      -- The left part is of the same level and is evaluated before its operation is reached.
      rw [List.append_assoc, ihleft (Nat.le_refl _) hleftWithin, Tree.run, bind_assoc]
      congr 1
      funext x
      rw [List.cons_append, passFrom_of_rest_ne_nil (List.cons_ne_nil _ _), hstep]
      simp only [bind_assoc, pure_bind]
  | lift hmem hderives ih => exact ih (Nat.le_succ_of_le hlevel) hwithin done rest

theorem passFrom_eq_collapse {level precedence : Nat} {tokens : List Token}
    {tree : Tree} (h : Derives level tokens tree) (hprecedence : precedence ≤ 3)
    (hwithin : Within precedence tokens) (done rest : List Token) :
    passFrom precedence ⟨done, tokens ++ rest⟩ = tree.collapse precedence >>= fun next =>
      passFrom precedence ⟨next.tokens.reverse ++ done, rest⟩ := by
  induction h generalizing done rest with
  | number x =>
      have hlevel : precedence ≤ 4 := Nat.le_succ_of_le hprecedence
      exact passFrom_eq_run (.number x) hlevel hprecedence hwithin done rest
  | bracket hinner ih => exact absurd hwithin not_within_bracket
  | root hinner ih =>
      rw [passFrom_eq_run (.root hinner) (Nat.le_succ_of_le hprecedence) hprecedence hwithin,
        Tree.collapse_root, map_eq_pure_bind, bind_assoc]
      rfl
  | @binary op leftTokens rightTokens left right hleft hright ihleft ihright =>
      by_cases hlt : op.precedence < precedence
      · obtain ⟨hleftWithin, hrightWithin⟩ := within_append.mp hwithin
        obtain ⟨-, hrightWithin⟩ := within_operator_cons.mp hrightWithin
        have hpassed : ∀ other, Token.operator (.binary op) = .operator other →
            other.precedence ≠ precedence := by
          rintro other ⟨⟩
          exact Nat.ne_of_lt hlt
        rw [List.append_assoc, ihleft hleftWithin, Tree.collapse, if_pos hlt,
          bind_assoc]
        congr 1
        funext leftNext
        rw [List.cons_append, passFrom_of_passed hpassed, ihright hrightWithin,
          bind_assoc]
        simp [Tree.tokens]
      · have hge := Nat.le_of_not_lt hlt
        rw [passFrom_eq_run (.binary hleft hright) hge hprecedence hwithin,
          Tree.collapse_of_le hge, map_eq_pure_bind, bind_assoc]
        rfl
  | lift hmem hderives ih => exact ih hwithin done rest

theorem pass_eq_collapse {level precedence : Nat} {tokens : List Token} {tree : Tree}
    (h : Derives level tokens tree) (hprecedence : precedence ≤ 3)
    (hwithin : Within precedence tokens) :
    pass precedence tokens = Tree.tokens <$> tree.collapse precedence := by
  have hpass := passFrom_eq_collapse h hprecedence hwithin [] []
  rw [List.append_nil] at hpass
  rw [pass, Cursor.start, hpass, map_eq_pure_bind]
  congr 1
  funext next
  rw [passFrom_of_rest_eq_nil rfl, Cursor.tokens]
  simp

/-- What the pass above a precedence keeps of an expression. -/
structure Collapsed (level precedence : Nat) (tree next : Tree) : Prop where
  derives : Derives level next.tokens next
  within : Within precedence next.tokens
  value : next.value = tree.value

theorem collapsed_number {level : Nat} (precedence : Nat) {tree : Tree} {x : Float}
    (hlevel : 1 ≤ level ∧ level ≤ 4) (h : tree.value = .ok x) :
    Collapsed level precedence tree (.number x) where
  derives := derives_of_operand (.number x) hlevel.1 hlevel.2
  within := within_number precedence x
  value := h.symm

theorem exists_of_number_run {tree next : Tree}
    (h : (Tree.number <$> tree.run).result = .ok next) :
    ∃ x, tree.value = .ok x ∧ next = .number x := by
  rw [map_eq_pure_bind] at h
  obtain ⟨x, hrun, h⟩ := Outcome.exists_of_result_bind_eq_ok h
  rw [Tree.result_run] at hrun
  exact ⟨x, hrun, (Except.ok.inj h).symm⟩

/-- What a collapse gives is built from numbers, which stand for parts that have a
value, and from operations below its level. -/
theorem collapse_induction {level : Nat} {motive : Tree → Tree → Prop}
    (number : ∀ tree x, tree.value = .ok x → motive tree (.number x))
    (binary : ∀ op left right leftNext rightNext, Operation.precedence op < level →
      motive left leftNext → motive right rightNext →
        motive (.binary op left right) (.binary op leftNext rightNext))
    {tree next : Tree} (h : (tree.collapse level).result = .ok next) :
    motive tree next := by
  have hrun {other result : Tree} (h : (Tree.number <$> other.run).result = .ok result) :
      motive other result := by
    obtain ⟨x, hvalue, rfl⟩ := exists_of_number_run h
    exact number other x hvalue
  induction tree generalizing next with
  | number x => exact hrun h
  | bracket inner _ => exact hrun h
  | root inner _ => exact hrun h
  | binary op left right ihleft ihright =>
      by_cases hlt : op.precedence < level
      · rw [Tree.collapse, if_pos hlt] at h
        obtain ⟨leftNext, hleft, h⟩ := Outcome.exists_of_result_bind_eq_ok h
        obtain ⟨rightNext, hright, h⟩ := Outcome.exists_of_result_bind_eq_ok h
        obtain rfl := Except.ok.inj h
        exact binary op left right leftNext rightNext hlt (ihleft hleft) (ihright hright)
      · rw [Tree.collapse_of_le (Nat.le_of_not_lt hlt)] at h
        exact hrun h

theorem collapsed_of_collapse {level precedence : Nat} {tokens : List Token}
    {tree next : Tree} (h : Derives level tokens tree) (hfree : BracketFree tokens)
    (hcollapse : (tree.collapse (precedence + 1)).result = .ok next) :
    Collapsed level precedence tree next := by
  induction h generalizing next with
  | number x =>
      obtain ⟨y, hvalue, rfl⟩ := exists_of_number_run hcollapse
      exact collapsed_number precedence (by decide) hvalue
  | bracket hinner ih => exact absurd (within_three hfree) not_within_bracket
  | root hinner ih =>
      obtain ⟨y, hvalue, rfl⟩ := exists_of_number_run hcollapse
      exact collapsed_number precedence (by decide) hvalue
  | @binary op leftTokens rightTokens left right hleft hright ihleft ihright =>
      by_cases hlt : op.precedence < precedence + 1
      · rw [Tree.collapse, if_pos hlt] at hcollapse
        obtain ⟨leftNext, hleftNext, hcollapse⟩ :=
          Outcome.exists_of_result_bind_eq_ok hcollapse
        obtain ⟨rightNext, hrightNext, hcollapse⟩ :=
          Outcome.exists_of_result_bind_eq_ok hcollapse
        obtain rfl := Except.ok.inj hcollapse
        obtain ⟨hleftFree, hrightFree⟩ := bracketFree_append.mp hfree
        obtain ⟨-, hrightFree⟩ := bracketFree_cons.mp hrightFree
        have hl := ihleft hleftFree hleftNext
        have hr := ihright hrightFree hrightNext
        refine ⟨.binary hl.derives hr.derives, ?_, ?_⟩
        · rw [Tree.tokens, within_append, within_operator_cons]
          exact ⟨hl.within, Nat.le_of_lt_succ hlt, hr.within⟩
        · rw [Tree.value, Tree.value, hl.value, hr.value]
      · rw [Tree.collapse_of_le (Nat.le_of_not_lt hlt)] at hcollapse
        obtain ⟨y, hvalue, rfl⟩ := exists_of_number_run hcollapse
        exact collapsed_number precedence (level_bounds (.binary hleft hright)) hvalue
  | lift hmem hderives ih =>
      have hnext := ih hfree hcollapse
      exact ⟨.lift hmem hnext.derives, hnext.within, hnext.value⟩

theorem exists_collapse_of_value {tree : Tree} {x : Float} (precedence : Nat)
    (h : tree.value = .ok x) :
    ∃ next, (tree.collapse precedence).result = .ok next := by
  have hrun {other : Tree} {y : Float} (hvalue : other.value = .ok y) :
      (Tree.number <$> other.run).result = .ok (.number y) := by
    rw [map_eq_pure_bind, Outcome.result_bind, Tree.result_run, hvalue]
    rfl
  induction tree generalizing x with
  | number y => exact ⟨_, hrun h⟩
  | bracket inner _ => exact ⟨_, hrun h⟩
  | root inner _ => exact ⟨_, hrun h⟩
  | binary op left right ihleft ihright =>
      obtain ⟨y, z, hy, hz, -⟩ := Tree.value_binary_eq_ok.mp h
      by_cases hlt : op.precedence < precedence
      · obtain ⟨leftNext, hleft⟩ := ihleft hy
        obtain ⟨rightNext, hright⟩ := ihright hz
        refine ⟨.binary op leftNext rightNext, ?_⟩
        rw [Tree.collapse, if_pos hlt, Outcome.result_bind_of_ok _ hleft,
          Outcome.result_bind_of_ok _ hright]
        rfl
      · rw [Tree.collapse_of_le (Nat.le_of_not_lt hlt)]
        exact ⟨_, hrun h⟩

/-- The value of an expression without brackets: its powers and roots are evaluated
first, then its products, then its sums. -/
def Tree.runInPasses (tree : Tree) : Outcome Float := do
  let powers ← tree.collapse 3
  let products ← powers.collapse 2
  let sums ← products.collapse 1
  .ofExcept (single sums.tokens)

/-- An expression without brackets is reduced as its tree is evaluated in passes. -/
theorem reduce_eq_runInPasses {tokens : List Token} {tree : Tree}
    (h : Derives 1 tokens tree)
    (hfree : BracketFree tokens) : reduce tokens = tree.runInPasses := by
  rw [reduce, pass_eq_collapse h (by decide) (within_three hfree), Tree.runInPasses,
    map_eq_pure_bind, bind_assoc]
  apply Outcome.bind_congr_of_ok
  intro powers hpowers
  have hcollapsed := collapsed_of_collapse h hfree hpowers
  rw [pure_bind, pass_eq_collapse hcollapsed.derives (by decide) hcollapsed.within,
    map_eq_pure_bind, bind_assoc]
  apply Outcome.bind_congr_of_ok
  intro products hproducts
  have hcollapsed :=
    collapsed_of_collapse hcollapsed.derives hcollapsed.within.bracketFree hproducts
  rw [pure_bind, pass_eq_collapse hcollapsed.derives (by decide) hcollapsed.within,
    map_eq_pure_bind, bind_assoc]
  rfl

theorem exists_number_of_within {tree : Tree} (h : Within 0 tree.tokens) :
    ∃ x, tree = .number x := by
  have hnone (op : Operator) (hmem : op ∈ operatorsOf tree.tokens) : False :=
    absurd (h.le op hmem) (Nat.not_le.mpr op.precedence_pos)
  cases tree with
  | number x => exact ⟨x, rfl⟩
  | bracket inner => exact absurd h not_within_bracket
  | root inner => exact (hnone .root List.mem_cons_self).elim
  | binary op left right => exact (hnone (.binary op) (by simp [Tree.tokens])).elim

theorem exists_number_of_collapsed {level : Nat} {tree next : Tree} {x : Float}
    (h : Collapsed level 0 tree next) (hvalue : tree.value = .ok x) :
    next = .number x := by
  obtain ⟨y, rfl⟩ := exists_number_of_within h.within
  obtain rfl := Except.ok.inj (h.value.trans hvalue)
  rfl

theorem result_reduce_of_value {tokens : List Token} {tree : Tree} {x : Float}
    (h : Derives 1 tokens tree) (hfree : BracketFree tokens)
    (hvalue : tree.value = .ok x) :
    (reduce tokens).result = checkFinite x := by
  obtain ⟨powers, hpowers⟩ := exists_collapse_of_value 3 hvalue
  have hcollapsed := collapsed_of_collapse h hfree hpowers
  have hvalue := hcollapsed.value.trans hvalue
  obtain ⟨products, hproducts⟩ := exists_collapse_of_value 2 hvalue
  have hcollapsed :=
    collapsed_of_collapse hcollapsed.derives hcollapsed.within.bracketFree hproducts
  have hvalue := hcollapsed.value.trans hvalue
  obtain ⟨sums, hsums⟩ := exists_collapse_of_value 1 hvalue
  have hcollapsed :=
    collapsed_of_collapse hcollapsed.derives hcollapsed.within.bracketFree hsums
  obtain rfl := exists_number_of_collapsed hcollapsed hvalue
  rw [reduce_eq_runInPasses h hfree, Tree.runInPasses,
    Outcome.result_bind_of_ok _ hpowers,
    Outcome.result_bind_of_ok _ hproducts, Outcome.result_bind_of_ok _ hsums]
  rfl

theorem reduce_number (x : Float) : reduce [.number x] = .ofExcept (checkFinite x) := by
  exact reduce_eq_runInPasses (derives_one (.number x))
    (bracketFree_cons.mpr ⟨rfl, bracketFree_nil⟩)

theorem reduce_binary (op : Operation) (x y : Float) :
    reduce [.number x, .operator (.binary op), .number y] =
      combine op x y >>= fun z => .ofExcept (checkFinite z) := by
  have hfree : BracketFree [.number x, .operator (.binary op), .number y] := by
    simp [BracketFree, Token.isBracket]
  rw [reduce_eq_runInPasses (derives_one (derives_binary_numbers op x y)) hfree]
  cases op <;>
    simp [Tree.runInPasses, Tree.collapse, Tree.run, Tree.tokens,
      Operation.precedence, single]

theorem result_reduce_div_zero (x : Float) {y : Float} (h : y == 0) :
    (reduce [.number x, .operator (.binary .div), .number y]).result =
      .error .divisionByZero := by
  rw [reduce_binary, Outcome.result_bind, result_combine, Operation.apply,
    if_pos ⟨rfl, h⟩]
  rfl

end Calculator
