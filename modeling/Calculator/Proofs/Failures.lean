import Calculator.Proofs.SquareRoot
import Calculator.Proofs.Value
import Calculator.Tree.Failure
import Calculator.Proofs.Pass

namespace Calculator

def AllFinite (tokens : List Token) : Prop :=
  ∀ x, .number x ∈ tokens → x.isFinite

theorem allFinite_append {front behind : List Token} :
    AllFinite (front ++ behind) ↔ AllFinite front ∧ AllFinite behind := by
  constructor
  · intro h
    exact ⟨fun x hmem => h x (List.mem_append_left _ hmem),
      fun x hmem => h x (List.mem_append_right _ hmem)⟩
  · rintro ⟨hfront, hbehind⟩ x hmem
    rcases List.mem_append.mp hmem with hmem | hmem
    · exact hfront x hmem
    · exact hbehind x hmem

theorem allFinite_of_cons {token : Token} {rest : List Token}
    (h : AllFinite (token :: rest)) :
    AllFinite rest :=
  fun x hmem => h x (List.mem_cons_of_mem _ hmem)

theorem isFinite_of_squareRoot {x y : Float} (h : squareRoot x = .ok y) :
    y.isFinite := by
  obtain ⟨-, hfinite, rfl⟩ := squareRoot_eq_ok_iff.mp h
  exact hfinite

theorem squareRoot_eq_error_iff {x : Float} (hfinite : x.isFinite) {fault : Fault} :
    squareRoot x = .error fault ↔ x < 0 ∧ fault = .negativeRoot x := by
  unfold squareRoot
  by_cases hnegative : x < 0
  · rw [if_pos hnegative]
    constructor
    · intro h
      exact ⟨hnegative, (Except.error.inj h).symm⟩
    · rintro ⟨-, rfl⟩
      rfl
  · rw [if_neg hnegative, if_pos (Binary64.isFinite_sqrt hfinite hnegative)]
    constructor
    · intro h
      contradiction
    · rintro ⟨h, -⟩
      contradiction

theorem isFinite_of_apply {op : Operation} {x y z : Float} (h : op.apply x y = .ok z) :
    z.isFinite := by
  obtain ⟨-, hfinite, rfl⟩ := apply_eq_ok_iff.mp h
  exact hfinite

theorem apply_eq_error_iff {op : Operation} {x y : Float} {fault : Fault} :
    op.apply x y = .error fault ↔
      (op = .div ∧ y == 0) ∧ fault = .divisionByZero ∨
        ¬ (op = .div ∧ y == 0) ∧ ¬ (op.value x y).isFinite ∧
        fault = .resultNotFinite op x y := by
  unfold Operation.apply
  by_cases hzero : op = .div ∧ y == 0
  · rw [if_pos hzero]
    constructor
    · intro h
      exact .inl ⟨hzero, (Except.error.inj h).symm⟩
    · rintro (⟨-, rfl⟩ | ⟨h, -⟩)
      · rfl
      · exact absurd hzero h
  · rw [if_neg hzero]
    by_cases hfinite : (op.value x y).isFinite
    · rw [if_pos hfinite]
      constructor
      · intro h
        contradiction
      · rintro (⟨h, -⟩ | ⟨-, h, -⟩)
        · exact absurd h hzero
        · exact absurd hfinite h
    · rw [if_neg hfinite]
      constructor
      · intro h
        exact .inr ⟨hzero, hfinite, (Except.error.inj h).symm⟩
      · rintro (⟨h, -⟩ | ⟨-, -, rfl⟩)
        · exact absurd h hzero
        · rfl

namespace Tree

theorem isFinite_of_value {tree : Tree} {x : Float} (hfinite : AllFinite tree.tokens)
    (h : tree.value = .ok x) : x.isFinite := by
  cases tree with
  | number y =>
      obtain rfl := Except.ok.inj h
      exact hfinite _ List.mem_cons_self
  | bracket inner => exact (value_bracket_eq_ok.mp h).2
  | root inner =>
      obtain ⟨y, -, hroot⟩ := value_root_eq_ok.mp h
      exact isFinite_of_squareRoot hroot
  | binary op left right =>
      obtain ⟨y, z, -, -, happly⟩ := value_binary_eq_ok.mp h
      exact isFinite_of_apply happly

theorem value_of_fails {part : Tree} {fault : Fault} (h : part.Fails fault) :
    part.value = .error fault := by
  cases h with
  | negativeRoot hinner hnegative =>
      rw [value, value_eq_ok_iff.mpr hinner]
      exact if_pos hnegative
  | divisionByZero hleft hright hzero =>
      rw [value, value_eq_ok_iff.mpr hleft, value_eq_ok_iff.mpr hright]
      exact apply_eq_error_iff.mpr (.inl ⟨⟨rfl, hzero⟩, rfl⟩)
  | resultNotFinite hleft hright hdivision hresult =>
      rw [value, value_eq_ok_iff.mpr hleft, value_eq_ok_iff.mpr hright]
      exact apply_eq_error_iff.mpr (.inr ⟨hdivision, hresult, rfl⟩)

theorem fails_root_iff {inner : Tree} {fault : Fault}
    (hfinite : AllFinite inner.tokens) :
    (root inner).Fails fault ↔ ∃ x, inner.value = .ok x ∧
    squareRoot x = .error fault := by
  simp only [value_eq_ok_iff]
  constructor
  · rintro (⟨hinner, hnegative⟩ | _ | _)
    exact ⟨_, hinner, if_pos hnegative⟩
  · rintro ⟨x, hinner, herror⟩
    have hx := isFinite_of_value hfinite (value_eq_ok_iff.mpr hinner)
    obtain ⟨hnegative, rfl⟩ := (squareRoot_eq_error_iff hx).mp herror
    exact .negativeRoot hinner hnegative

theorem fails_binary_iff {op : Operation} {left right : Tree} {fault : Fault} :
    (binary op left right).Fails fault ↔
      ∃ x y, left.value = .ok x ∧ right.value = .ok y ∧
      op.apply x y = .error fault := by
  simp only [value_eq_ok_iff]
  constructor
  · rintro (_ | ⟨hleft, hright, hzero⟩ | ⟨hleft, hright, hdivision, hresult⟩)
    · exact ⟨_, _, hleft, hright, apply_eq_error_iff.mpr (.inl ⟨⟨rfl, hzero⟩, rfl⟩)⟩
    · exact ⟨_, _, hleft, hright,
        apply_eq_error_iff.mpr (.inr ⟨hdivision, hresult, rfl⟩)⟩
  · rintro ⟨x, y, hleft, hright, herror⟩
    rcases apply_eq_error_iff.mp herror with ⟨⟨rfl, hzero⟩, rfl⟩ | ⟨hdivision, hresult, rfl⟩
    · exact .divisionByZero hleft hright hzero
    · exact .resultNotFinite hleft hright hdivision hresult

theorem failures_eq_nil {tree : Tree} {x : Float} (h : tree.value = .ok x)
    (segment start : Nat) :
    tree.failures segment start = [] := by
  induction tree generalizing x segment start with
  | number y => rfl
  | bracket inner ih => exact ih (value_bracket_eq_ok.mp h).1 _ _
  | root inner _ =>
      obtain ⟨y, hinner, hroot⟩ := value_root_eq_ok.mp h
      simp only [failures, hinner, hroot, failureAt]
  | binary op left right _ _ =>
      obtain ⟨y, z, hleft, hright, happly⟩ := value_binary_eq_ok.mp h
      simp only [failures, hleft, hright, happly, failureAt]

theorem failures_root_of_error {inner : Tree} {fault : Fault}
    (h : inner.value = .error fault) (segment start : Nat) :
    (root inner).failures segment start = inner.failures segment (start + 1) := by
  simp only [failures, h]

theorem failures_binary_of_no_values {op : Operation} {left right : Tree}
    (h : ¬ ∃ x y, left.value = .ok x ∧ right.value = .ok y) (segment start : Nat) :
    (binary op left right).failures segment start = left.failures segment start ++
      right.failures segment (start + left.tokens.length + 1) := by
  rcases hleft : left.value with fault | x
  · simp only [failures, hleft]
  · rcases hright : right.value with fault | y
    · simp only [failures, hleft, hright]
    · exact absurd ⟨x, y, hleft, hright⟩ h

theorem exists_value_of_mem_operators {tree part : Tree} {site : Site}
    {segment start : Nat}
    {x : Float} (h : (site, part) ∈ tree.operators segment start)
    (hvalue : tree.value = .ok x) :
    ∃ y, part.value = .ok y := by
  induction tree generalizing x segment start with
  | number y => contradiction
  | bracket inner ih => exact ih h (value_bracket_eq_ok.mp hvalue).1
  | root inner ih =>
      rcases List.mem_cons.mp h with heq | h
      · obtain ⟨-, rfl⟩ := Prod.mk.inj heq
        exact ⟨x, hvalue⟩
      · obtain ⟨y, hinner, -⟩ := value_root_eq_ok.mp hvalue
        exact ih h hinner
  | binary op left right ihleft ihright =>
      obtain ⟨y, z, hleft, hright, -⟩ := value_binary_eq_ok.mp hvalue
      rcases List.mem_append.mp h with h | h
      · exact ihleft h hleft
      rcases List.mem_cons.mp h with heq | h
      · obtain ⟨-, rfl⟩ := Prod.mk.inj heq
        exact ⟨x, hvalue⟩
      · exact ihright h hright

theorem not_fails_of_mem_operators {tree part : Tree} {site : Site}
    {segment start : Nat}
    {x : Float} {fault : Fault} (h : (site, part) ∈ tree.operators segment start)
    (hvalue : tree.value = .ok x) : ¬ part.Fails fault := by
  intro hfails
  obtain ⟨y, hpart⟩ := exists_value_of_mem_operators h hvalue
  rw [value_of_fails hfails] at hpart
  contradiction

theorem mem_failureAt {site other : Site} {result : Except Fault Float}
    {fault : Fault} :
    (other, fault) ∈ failureAt site result ↔ other = site ∧ result = .error fault := by
  rcases result with cause | x
  · simp only [failureAt, List.mem_singleton, Prod.mk.injEq,
      Except.error.injEq, eq_comm]
  · simp [failureAt]

theorem mem_failures_iff {tree : Tree} (hfinite : AllFinite tree.tokens) {site : Site}
    {fault : Fault} {segment start : Nat} :
    (site, fault) ∈ tree.failures segment start ↔
      ∃ part, (site, part) ∈ tree.operators segment start ∧ part.Fails fault := by
  induction tree generalizing segment start with
  | number x => simp [failures, operators]
  | bracket inner ih => exact ih (allFinite_append.mp (allFinite_of_cons hfinite)).1
  | root inner ih =>
      have hinnerFinite := allFinite_of_cons hfinite
      simp only [operators, List.mem_cons, Prod.mk.injEq]
      rcases hinner : inner.value with cause | x
      · rw [failures_root_of_error hinner, ih hinnerFinite]
        constructor
        · rintro ⟨part, hmem, hfails⟩
          exact ⟨part, .inr hmem, hfails⟩
        · rintro ⟨part, ⟨-, rfl⟩ | hmem, hfails⟩
          · obtain ⟨x, hvalue, -⟩ := (fails_root_iff hinnerFinite).mp hfails
            rw [hinner] at hvalue
            contradiction
          · exact ⟨part, hmem, hfails⟩
      · simp only [failures, hinner, mem_failureAt]
        constructor
        · rintro ⟨rfl, herror⟩
          exact ⟨_, .inl ⟨rfl, rfl⟩,
            (fails_root_iff hinnerFinite).mpr ⟨x, hinner, herror⟩⟩
        · rintro ⟨part, ⟨rfl, rfl⟩ | hmem, hfails⟩
          · obtain ⟨y, hvalue, herror⟩ := (fails_root_iff hinnerFinite).mp hfails
            rw [hinner] at hvalue
            obtain rfl := Except.ok.inj hvalue
            exact ⟨rfl, herror⟩
          · exact absurd hfails (not_fails_of_mem_operators hmem hinner)
  | binary op left right ihleft ihright =>
      obtain ⟨hleftFinite, hrightFinite⟩ := allFinite_append.mp hfinite
      have hrightFinite := allFinite_of_cons hrightFinite
      simp only [operators, List.mem_append, List.mem_cons, Prod.mk.injEq]
      by_cases hvalues : ∃ x y, left.value = .ok x ∧ right.value = .ok y
      · obtain ⟨x, y, hleft, hright⟩ := hvalues
        simp only [failures, hleft, hright, mem_failureAt]
        constructor
        · rintro ⟨rfl, herror⟩
          exact ⟨_, .inr (.inl ⟨rfl, rfl⟩),
            fails_binary_iff.mpr ⟨x, y, hleft, hright, herror⟩⟩
        · rintro ⟨part, hmem | ⟨rfl, rfl⟩ | hmem, hfails⟩
          · exact absurd hfails (not_fails_of_mem_operators hmem hleft)
          · obtain ⟨x', y', hleft', hright', herror⟩ := fails_binary_iff.mp hfails
            rw [hleft] at hleft'
            rw [hright] at hright'
            obtain rfl := Except.ok.inj hleft'
            obtain rfl := Except.ok.inj hright'
            exact ⟨rfl, herror⟩
          · exact absurd hfails (not_fails_of_mem_operators hmem hright)
      · rw [failures_binary_of_no_values hvalues, List.mem_append, ihleft hleftFinite,
          ihright hrightFinite]
        constructor
        · rintro (⟨part, hmem, hfails⟩ | ⟨part, hmem, hfails⟩)
          · exact ⟨part, .inl hmem, hfails⟩
          · exact ⟨part, .inr (.inr hmem), hfails⟩
        · rintro ⟨part, hmem | ⟨rfl, rfl⟩ | hmem, hfails⟩
          · exact .inl ⟨part, hmem, hfails⟩
          · obtain ⟨x, y, hleft, hright, -⟩ := fails_binary_iff.mp hfails
            exact absurd ⟨x, y, hleft, hright⟩ hvalues
          · exact .inr ⟨part, hmem, hfails⟩

/-- A site in a tree whose first token stands at `start` and whose innermost bracket
opens in front of `segment`. -/
structure Inside (tree : Tree) (segment start : Nat) (site : Site) : Prop where
  start_le : start ≤ site.position
  lt : site.position < start + tree.tokens.length
  segment : site.segment = segment ∨
    start < site.segment ∧ site.segment ≤ start + tree.tokens.length

theorem inside_of_mem_operators {tree part : Tree} {site : Site} {segment start : Nat}
    (h : (site, part) ∈ tree.operators segment start) :
    tree.Inside segment start site := by
  induction tree generalizing segment start with
  | number x => contradiction
  | bracket inner ih =>
      have hlength :
          (bracket inner).tokens.length = inner.tokens.length + 2 := by simp [tokens]
      obtain ⟨hstart, hlt, hsegment⟩ := ih h
      constructor <;> omega
  | root inner ih =>
      rcases List.mem_cons.mp h with heq | h
      · obtain ⟨rfl, -⟩ := Prod.mk.inj heq
        exact ⟨Nat.le_refl _, Nat.lt_add_of_pos_right (Nat.succ_pos _), .inl rfl⟩
      · have hlength : (root inner).tokens.length = inner.tokens.length + 1 := rfl
        obtain ⟨hstart, hlt, hsegment⟩ := ih h
        constructor <;> omega
  | binary op left right ihleft ihright =>
      have hlength : (binary op left right).tokens.length =
          left.tokens.length + (right.tokens.length + 1) := by simp [tokens]
      rcases List.mem_append.mp h with h | h
      · obtain ⟨hstart, hlt, hsegment⟩ := ihleft h
        constructor <;> omega
      rcases List.mem_cons.mp h with heq | h
      · obtain ⟨rfl, -⟩ := Prod.mk.inj heq
        constructor
        · exact Nat.le_add_right _ _
        · change start + left.tokens.length < _
          omega
        · exact .inl rfl
      · obtain ⟨hstart, hlt, hsegment⟩ := ihright h
        constructor <;> omega

theorem pairwise_operators (tree : Tree) (segment start : Nat) :
    (tree.operators segment start).Pairwise fun first second =>
      first.1.position < second.1.position := by
  induction tree generalizing segment start with
  | number x => exact .nil
  | bracket inner ih => exact ih _ _
  | root inner ih =>
      refine .cons ?_ (ih _ _)
      rintro ⟨site, part⟩ hmem
      exact (inside_of_mem_operators hmem).start_le
  | binary op left right ihleft ihright =>
      refine List.pairwise_append.mpr ⟨ihleft _ _, .cons ?_ (ihright _ _), ?_⟩
      · rintro ⟨site, part⟩ hmem
        exact (inside_of_mem_operators hmem).start_le
      · rintro ⟨site, part⟩ hmem ⟨other, otherPart⟩ hother
        have hlt := (inside_of_mem_operators hmem).lt
        rcases List.mem_cons.mp hother with heq | hother
        · obtain ⟨rfl, -⟩ := Prod.mk.inj heq
          exact hlt
        · exact Nat.lt_trans hlt (inside_of_mem_operators hother).start_le

theorem sublist_failures (tree : Tree) (segment start : Nat) :
    List.Sublist ((tree.failures segment start).map Prod.fst)
      ((tree.operators segment start).map Prod.fst) := by
  have hone (site : Site) (result : Except Fault Float) :
      List.Sublist ((failureAt site result).map Prod.fst) [site] := by
    rcases result with fault | x
    · exact List.Sublist.refl _
    · exact List.nil_sublist _
  induction tree generalizing segment start with
  | number x => exact List.Sublist.refl _
  | bracket inner ih => exact ih _ _
  | root inner ih =>
      rcases hinner : inner.value with fault | x
      · rw [failures_root_of_error hinner]
        exact (ih _ _).cons _
      · simp only [failures, hinner, operators, List.map_cons]
        exact (hone _ _).trans (List.singleton_sublist.mpr List.mem_cons_self)
  | binary op left right ihleft ihright =>
      by_cases hvalues : ∃ x y, left.value = .ok x ∧ right.value = .ok y
      · obtain ⟨x, y, hleft, hright⟩ := hvalues
        simp only [failures, hleft, hright, operators, List.map_append, List.map_cons]
        exact (hone _ _).trans (List.singleton_sublist.mpr (by simp))
      · rw [failures_binary_of_no_values hvalues, List.map_append, operators,
          List.map_append]
        exact (ihleft _ _).append ((ihright _ _).cons _)

theorem pairwise_failures (tree : Tree) (segment start : Nat) :
    ((tree.failures segment start).map Prod.fst).Pairwise fun first second =>
      first.position < second.position := by
  have hoperators :
      ((tree.operators segment start).map Prod.fst).Pairwise fun first second =>
      first.position < second.position :=
    List.pairwise_map.mpr (pairwise_operators tree segment start)
  exact hoperators.sublist (sublist_failures tree segment start)

theorem inside_of_mem_failures {tree : Tree} {site : Site} {fault : Fault}
    {segment start : Nat}
    (h : (site, fault) ∈ tree.failures segment start) :
    tree.Inside segment start site := by
  have hsite := (sublist_failures tree segment start).subset (List.mem_map_of_mem h)
  obtain ⟨⟨other, part⟩, hoperator, rfl⟩ := List.mem_map.mp hsite
  exact inside_of_mem_operators hoperator

theorem exists_operator_of_mem_operators {tree part : Tree} {site : Site}
    {segment start : Nat} (h : (site, part) ∈ tree.operators segment start) :
    ∃ op ∈ operatorsOf tree.tokens, op.precedence = site.precedence := by
  induction tree generalizing segment start with
  | number x => contradiction
  | bracket inner ih =>
      obtain ⟨op, hop, hprecedence⟩ := ih h
      refine ⟨op, ?_, hprecedence⟩
      simpa [tokens] using hop
  | root inner ih =>
      rw [tokens, operatorsOf_operator_cons]
      rcases List.mem_cons.mp h with heq | h
      · obtain ⟨rfl, -⟩ := Prod.mk.inj heq
        exact ⟨.root, List.mem_cons_self, rfl⟩
      · obtain ⟨op, hop, hprecedence⟩ := ih h
        exact ⟨op, List.mem_cons_of_mem _ hop, hprecedence⟩
  | binary op left right ihleft ihright =>
      rw [tokens, operatorsOf_append, operatorsOf_operator_cons]
      rcases List.mem_append.mp h with h | h
      · obtain ⟨other, hother, hprecedence⟩ := ihleft h
        exact ⟨other, List.mem_append_left _ hother, hprecedence⟩
      rcases List.mem_cons.mp h with heq | h
      · obtain ⟨rfl, -⟩ := Prod.mk.inj heq
        exact ⟨.binary op, List.mem_append_right _ List.mem_cons_self, rfl⟩
      · obtain ⟨other, hother, hprecedence⟩ := ihright h
        exact ⟨other, List.mem_append_right _ (List.mem_cons_of_mem _ hother),
          hprecedence⟩

end Tree

end Calculator
