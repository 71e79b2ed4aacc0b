import Calculator.Proofs.Collapse
import Calculator.Proofs.Failures

namespace Calculator

open Calculator.Bracket

namespace Tree

/-- The fault of a result, for an operator of a precedence. -/
def faultAt (precedence : Nat) : Except Fault Float → List (Nat × Fault)
  | .ok _ => []
  | .error fault => [(precedence, fault)]

/-- The faults of the operators that fail although their operands have values, from
left to right, each with the precedence of its operator. -/
def faults : Tree → List (Nat × Fault)
  | number _ => []
  | bracket inner => inner.faults
  | root inner =>
      match inner.value with
      | .ok x => faultAt Operator.root.precedence (squareRoot x)
      | .error _ => inner.faults
  | binary op left right =>
      match left.value, right.value with
      | .ok x, .ok y => faultAt op.precedence (op.apply x y)
      | _, _ => left.faults ++ right.faults

theorem map_failureAt (site : Site) (result : Except Fault Float) :
    (failureAt site result).map (fun failure => (failure.1.precedence, failure.2)) =
      faultAt site.precedence result := by
  rcases result with fault | x
  · rfl
  · rfl

theorem faults_root_of_error {inner : Tree} {fault : Fault}
    (h : inner.value = .error fault) :
    (root inner).faults = inner.faults := by
  simp only [faults, h]

theorem faults_binary_of_no_values {op : Operation} {left right : Tree}
    (h : ¬ ∃ x y, left.value = .ok x ∧ right.value = .ok y) :
    (binary op left right).faults = left.faults ++ right.faults := by
  rcases hleft : left.value with fault | x
  · simp only [faults, hleft]
  · rcases hright : right.value with fault | y
    · simp only [faults, hleft, hright]
    · exact absurd ⟨x, y, hleft, hright⟩ h

theorem map_failures (tree : Tree) (segment start : Nat) :
    (tree.failures segment start).map (fun failure => (failure.1.precedence, failure.2)) =
      tree.faults := by
  induction tree generalizing segment start with
  | number x => rfl
  | bracket inner ih => exact ih _ _
  | root inner ih =>
      rcases hinner : inner.value with fault | x
      · rw [failures_root_of_error hinner, faults_root_of_error hinner]
        exact ih _ _
      · simp only [failures, faults, hinner]
        exact map_failureAt _ _
  | binary op left right ihleft ihright =>
      by_cases hvalues : ∃ x y, left.value = .ok x ∧ right.value = .ok y
      · obtain ⟨x, y, hleft, hright⟩ := hvalues
        simp only [failures, faults, hleft, hright]
        exact map_failureAt _ _
      · rw [failures_binary_of_no_values hvalues, faults_binary_of_no_values hvalues,
          List.map_append, ihleft, ihright]

theorem faults_eq_nil {tree : Tree} {x : Float} (h : tree.value = .ok x) :
    tree.faults = [] := by
  rw [← map_failures tree 0 0, failures_eq_nil h, List.map_nil]

theorem exists_operator_of_mem_faults {tree : Tree} {precedence : Nat} {fault : Fault}
    (h : (precedence, fault) ∈ tree.faults) :
    ∃ op ∈ operatorsOf tree.tokens, op.precedence = precedence := by
  rw [← map_failures tree 0 0] at h
  obtain ⟨⟨site, other⟩, hmem, heq⟩ := List.mem_map.mp h
  obtain ⟨rfl, rfl⟩ := Prod.mk.inj heq
  have hsite := (sublist_failures tree 0 0).subset (List.mem_map_of_mem hmem)
  obtain ⟨⟨_, part⟩, hoperator, rfl⟩ := List.mem_map.mp hsite
  exact exists_operator_of_mem_operators hoperator

/-- Two trees that evaluation treats alike: with the same value and the same faults. -/
structure Alike (tree other : Tree) : Prop where
  value : tree.value = other.value
  faults : tree.faults = other.faults

theorem alike_number {tree : Tree} {x : Float} (h : tree.value = .ok x) :
    (number x).Alike tree :=
  ⟨h.symm, (faults_eq_nil h).symm⟩

theorem alike_root {inner other : Tree} (h : inner.Alike other) :
    (root inner).Alike (root other) := by
  constructor
  · rw [value, value, h.value]
  · simp only [Tree.faults, h.value, h.faults]

theorem alike_binary {op : Operation} {left right leftOther rightOther : Tree}
    (hleft : left.Alike leftOther) (hright : right.Alike rightOther) :
    (binary op left right).Alike (binary op leftOther rightOther) := by
  constructor
  · rw [value, value, hleft.value, hright.value]
  · simp only [Tree.faults, hleft.value, hright.value, hleft.faults, hright.faults]

theorem alike_of_collapse {tree next : Tree} {precedence : Nat}
    (h : (tree.collapse precedence).result = .ok next) : next.Alike tree := by
  refine collapse_induction (motive := fun tree next => next.Alike tree) ?_ ?_ h
  · intro tree x hvalue
    exact alike_number hvalue
  · intro op left right leftNext rightNext _ hleft hright
    exact alike_binary hleft hright

theorem lt_of_collapse {tree next : Tree} {precedence : Nat}
    (h : (tree.collapse precedence).result = .ok next) :
    ∀ other ∈ tree.faults, other.1 < precedence := by
  refine collapse_induction
    (motive := fun tree _ => ∀ other ∈ tree.faults, other.1 < precedence) ?_ ?_ h
  · intro tree x hvalue
    rw [faults_eq_nil hvalue]
    exact List.forall_mem_nil _
  · intro op left right leftNext rightNext hlt hleft hright
    by_cases hvalues : ∃ x y, left.value = .ok x ∧ right.value = .ok y
    · obtain ⟨x, y, hx, hy⟩ := hvalues
      simp only [faults, hx, hy]
      rcases op.apply x y with fault | z
      · exact List.forall_mem_singleton.mpr hlt
      · exact List.forall_mem_nil _
    · rw [faults_binary_of_no_values hvalues]
      exact List.forall_mem_append.mpr ⟨hleft, hright⟩

theorem exists_faults_of_error {tree : Tree} {fault : Fault}
    (hfree : BracketFree tree.tokens) (h : tree.value = .error fault) :
    ∃ precedence behind, tree.faults = (precedence, fault) :: behind := by
  induction tree with
  | number x => contradiction
  | bracket inner _ => exact absurd (within_three hfree) not_within_bracket
  | root inner ih =>
      obtain ⟨-, hinnerFree⟩ := bracketFree_cons.mp hfree
      rcases hinner : inner.value with cause | x
      · rw [value, hinner] at h
        obtain rfl := Except.error.inj h
        rw [faults_root_of_error hinner]
        exact ih hinnerFree hinner
      · rw [value, hinner] at h
        change squareRoot x = _ at h
        simp only [faults, hinner, h]
        exact ⟨_, _, rfl⟩
  | binary op left right ihleft ihright =>
      obtain ⟨hleftFree, hrightFree⟩ := bracketFree_append.mp hfree
      obtain ⟨-, hrightFree⟩ := bracketFree_cons.mp hrightFree
      rcases hleft : left.value with cause | x
      · rw [value, hleft] at h
        obtain rfl := Except.error.inj h
        obtain ⟨precedence, behind, hfaults⟩ := ihleft hleftFree hleft
        refine ⟨precedence, behind ++ right.faults, ?_⟩
        simp only [faults, hleft, hfaults, List.cons_append]
      rcases hright : right.value with cause | y
      · rw [value, hleft, hright] at h
        obtain rfl := Except.error.inj h
        obtain ⟨precedence, behind, hfaults⟩ := ihright hrightFree hright
        refine ⟨precedence, behind, ?_⟩
        simp only [faults, hleft, hright, faults_eq_nil hleft, List.nil_append, hfaults]
      · rw [value, hleft, hright] at h
        change op.apply x y = _ at h
        simp only [faults, hleft, hright, h]
        exact ⟨_, _, rfl⟩

end Tree

/-- A fault leads others if none is of a higher precedence and those in front of it
are of a lower one. -/
def Leads (precedence : Nat) (fault : Fault) (faults : List (Nat × Fault)) : Prop :=
  ∃ front behind, faults = front ++ (precedence, fault) :: behind ∧
    (∀ other ∈ front, other.1 < precedence) ∧ ∀ other ∈ behind, other.1 ≤ precedence

theorem leads_append_right {precedence : Nat} {fault : Fault}
    {faults others : List (Nat × Fault)}
    (h : Leads precedence fault faults) (hle : ∀ other ∈ others, other.1 ≤ precedence) :
    Leads precedence fault (faults ++ others) := by
  obtain ⟨front, behind, rfl, hfront, hbehind⟩ := h
  refine ⟨front, behind ++ others, by simp, hfront, ?_⟩
  intro other hmem
  rcases List.mem_append.mp hmem with hmem | hmem
  · exact hbehind other hmem
  · exact hle other hmem

theorem leads_append_left {precedence : Nat} {fault : Fault}
    {faults others : List (Nat × Fault)}
    (h : Leads precedence fault faults) (hlt : ∀ other ∈ others, other.1 < precedence) :
    Leads precedence fault (others ++ faults) := by
  obtain ⟨front, behind, rfl, hfront, hbehind⟩ := h
  refine ⟨others ++ front, behind, by simp, ?_, hbehind⟩
  intro other hmem
  rcases List.mem_append.mp hmem with hmem | hmem
  · exact hlt other hmem
  · exact hfront other hmem

theorem le_precedence_of_derives {level precedence : Nat} {tokens : List Token}
    {tree : Tree}
    (h : Derives level tokens tree) (hlevel : precedence ≤ level)
    (hprecedence : precedence ≤ 3)
    (hfree : BracketFree tokens) :
    ∀ op ∈ operatorsOf tokens, precedence ≤ op.precedence := by
  induction h with
  | number x => exact List.forall_mem_nil _
  | bracket hinner _ => exact absurd (within_three hfree) not_within_bracket
  | root hinner ih =>
      obtain ⟨-, hinnerFree⟩ := bracketFree_cons.mp hfree
      rw [operatorsOf_operator_cons]
      exact List.forall_mem_cons.mpr ⟨hprecedence, ih hlevel hinnerFree⟩
  | binary hleft hright ihleft ihright =>
      obtain ⟨hleftFree, hrightFree⟩ := bracketFree_append.mp hfree
      obtain ⟨-, hrightFree⟩ := bracketFree_cons.mp hrightFree
      rw [operatorsOf_append, operatorsOf_operator_cons]
      exact List.forall_mem_append.mpr ⟨ihleft hlevel hleftFree,
        List.forall_mem_cons.mpr ⟨hlevel, ihright (Nat.le_succ_of_le hlevel) hrightFree⟩⟩
  | lift hmem hderives ih => exact ih (Nat.le_succ_of_le hlevel) hfree

theorem le_of_within {precedence : Nat} {tokens : List Token} {tree : Tree}
    (htokens : tree.tokens = tokens) (hwithin : Within precedence tokens) :
    ∀ other ∈ tree.faults, other.1 ≤ precedence := by
  rintro ⟨failing, fault⟩ hmem
  obtain ⟨op, hop, rfl⟩ := Tree.exists_operator_of_mem_faults hmem
  rw [htokens] at hop
  exact hwithin.le op hop

theorem leads_of_error {level precedence : Nat} {tokens : List Token} {tree : Tree}
    {fault : Fault}
    (h : Derives level tokens tree) (hlevel : precedence ≤ level)
    (hprecedence : precedence ≤ 3)
    (hwithin : Within precedence tokens) (herror : tree.value = .error fault) :
    Leads precedence fault tree.faults := by
  have htokens := tokens_of_derives h
  have hfree : BracketFree tree.tokens := htokens ▸ hwithin.bracketFree
  have hle := le_of_within htokens hwithin
  obtain ⟨failing, behind, hfaults⟩ := Tree.exists_faults_of_error hfree herror
  have hmem : (failing, fault) ∈ tree.faults := hfaults ▸ List.mem_cons_self
  obtain ⟨op, hop, hfailing⟩ := Tree.exists_operator_of_mem_faults hmem
  rw [htokens] at hop
  rw [hfaults] at hle
  obtain ⟨hhead, hbehind⟩ := List.forall_mem_cons.mp hle
  have hge := le_precedence_of_derives h hlevel hprecedence hwithin.bracketFree op hop
  obtain rfl := Nat.le_antisymm hhead (hfailing ▸ hge)
  exact ⟨[], behind, hfaults, List.forall_mem_nil _, hbehind⟩

theorem leads_of_collapse {level precedence : Nat} {tokens : List Token} {tree : Tree}
    {fault : Fault} (h : Derives level tokens tree) (hprecedence : precedence ≤ 3)
    (hwithin : Within precedence tokens)
    (herror : (tree.collapse precedence).result = .error fault) :
    Leads precedence fault tree.faults := by
  have hrun {other : Tree} (h : (Tree.number <$> other.run).result = .error fault) :
      other.value = .error fault := by
    rw [map_eq_pure_bind] at h
    rcases Outcome.error_of_result_bind_eq_error h with h | ⟨x, -, h⟩
    · rwa [Tree.result_run] at h
    · contradiction
  induction h with
  | number x => exact nomatch hrun herror
  | bracket hinner _ => exact absurd hwithin not_within_bracket
  | root hinner _ =>
      exact leads_of_error (.root hinner) (Nat.le_succ_of_le hprecedence) hprecedence hwithin
        (hrun herror)
  | @binary op leftTokens rightTokens left right hleft hright ihleft ihright =>
      by_cases hlt : op.precedence < precedence
      · obtain ⟨hleftWithin, hrightWithin⟩ := within_append.mp hwithin
        obtain ⟨-, hrightWithin⟩ := within_operator_cons.mp hrightWithin
        rw [Tree.collapse, if_pos hlt] at herror
        have hvalues : ¬ ∃ x y, left.value = .ok x ∧ right.value = .ok y := by
          rintro ⟨x, y, hx, hy⟩
          obtain ⟨leftNext, hleftNext⟩ := exists_collapse_of_value precedence hx
          obtain ⟨rightNext, hrightNext⟩ := exists_collapse_of_value precedence hy
          rw [Outcome.result_bind_of_ok _ hleftNext,
            Outcome.result_bind_of_ok _ hrightNext]
            at herror
          contradiction
        rw [Tree.faults_binary_of_no_values hvalues]
        rcases Outcome.error_of_result_bind_eq_error herror with herror | ⟨next, hnext, herror⟩
        · exact leads_append_right (ihleft hleftWithin herror)
            (le_of_within (tokens_of_derives hright) hrightWithin)
        rcases Outcome.error_of_result_bind_eq_error herror with herror | ⟨_, -, herror⟩
        · exact leads_append_left (ihright hrightWithin herror) (Tree.lt_of_collapse hnext)
        · contradiction
      · have hle := Nat.le_of_not_lt hlt
        rw [Tree.collapse_of_le hle] at herror
        exact leads_of_error (.binary hleft hright) hle hprecedence hwithin (hrun herror)
  | lift hmem hderives ih => exact ih hwithin herror

/-- An expression without brackets that is not reduced to a value ends in its
leftmost fault of the highest precedence. -/
theorem exists_leads_of_reduce {tokens : List Token} {tree : Tree} {fault : Fault}
    (h : Derives 1 tokens tree) (hfree : BracketFree tokens)
    (hfinite : ∀ x, tree.value = .ok x → x.isFinite)
    (herror : (reduce tokens).result = .error fault) :
    ∃ precedence, Leads precedence fault tree.faults := by
  rw [reduce_eq_runInPasses h hfree, Tree.runInPasses] at herror
  rcases Outcome.error_of_result_bind_eq_error herror with herror | ⟨powers, hpowers, herror⟩
  · exact ⟨3, leads_of_collapse h (by decide) (within_three hfree) herror⟩
  have hcollapsed := collapsed_of_collapse h hfree hpowers
  rw [← (Tree.alike_of_collapse hpowers).faults]
  rcases Outcome.error_of_result_bind_eq_error herror with
    herror | ⟨products, hproducts, herror⟩
  · exact ⟨2, leads_of_collapse hcollapsed.derives (by decide) hcollapsed.within herror⟩
  have hproductsCollapsed :=
    collapsed_of_collapse hcollapsed.derives hcollapsed.within.bracketFree hproducts
  rw [← (Tree.alike_of_collapse hproducts).faults]
  rcases Outcome.error_of_result_bind_eq_error herror with herror | ⟨sums, hsums, herror⟩
  · exact ⟨1, leads_of_collapse hproductsCollapsed.derives (by decide)
      hproductsCollapsed.within herror⟩
  -- After the last pass a number is left, the value of the tree.
  have hsumsCollapsed := collapsed_of_collapse hproductsCollapsed.derives
    hproductsCollapsed.within.bracketFree hsums
  obtain ⟨x, rfl⟩ := exists_number_of_within hsumsCollapsed.within
  have hvalue : tree.value = .ok x := by
    rw [← hcollapsed.value, ← hproductsCollapsed.value, ← hsumsCollapsed.value]
    rfl
  have hsingle : checkFinite x = .ok x :=
    checkFinite_eq_ok_iff.mpr ⟨rfl, hfinite x hvalue⟩
  change checkFinite x = _ at herror
  rw [hsingle] at herror
  contradiction

end Calculator
