import Calculator.Proofs.FlatGrammar
import Calculator.Proofs.Range

namespace Calculator

namespace Binary64

open Float.Model
open Float.Model.UnpackedFloat

section Unpacked

variable {a b : UnpackedFloat}

theorem isFinite_of_isFinite_pack (h : (Float.ofModel (Float.Model.pack a)).isFinite) :
    a.isFinite := by
  cases a with
  | zero sign => rfl
  | finite sign mantissa exponent hpos => rfl
  | notANumber => exact absurd h (by decide)
  | infinity sign => exact absurd h (by cases sign <;> decide)

theorem isFinite_of_isFinite_add (h : (UnpackedFloat.add Format.binary64 a b).isFinite) :
    a.isFinite ∧ b.isFinite := by
  cases a <;> cases b <;> grind [UnpackedFloat.add, UnpackedFloat.isFinite]

theorem isFinite_of_isFinite_sub (h : (UnpackedFloat.sub Format.binary64 a b).isFinite) :
    a.isFinite ∧ b.isFinite := by
  cases a <;> cases b <;> grind [UnpackedFloat.sub, UnpackedFloat.isFinite]

theorem isFinite_of_isFinite_mul (h : (UnpackedFloat.mul Format.binary64 a b).isFinite) :
    a.isFinite ∧ b.isFinite := by
  cases a <;> cases b <;> grind [UnpackedFloat.mul, UnpackedFloat.isFinite]

theorem isFinite_of_isFinite_div (h : (UnpackedFloat.div Format.binary64 a b).isFinite) :
    a.isFinite ∧ (b.isFinite ∨ b.isInf) := by
  cases a <;> cases b <;>
    grind [UnpackedFloat.div, UnpackedFloat.isFinite, UnpackedFloat.isInf]

theorem isFinite_of_isFinite_sqrt (h : (UnpackedFloat.sqrt Format.binary64 a).isFinite) :
    a.isFinite := by
  cases a with
  | zero sign => rfl
  | finite sign mantissa exponent hpos => rfl
  | notANumber => contradiction
  | infinity sign => cases sign <;> contradiction

end Unpacked

end Binary64

open Calculator.Binary64

/-- The operands of a finite result are finite, unless it is a quotient by
infinity or a power. -/
theorem Operation.operands_of_isFinite_value {op : Operation} {x y : Float}
    (hop : op ≠ .pow)
    (h : (op.value x y).isFinite) :
    x.isFinite ∧ (y.isFinite ∨ op = .div ∧ y.isInf) := by
  have hboth (hfinite : x.isFinite ∧ y.isFinite) :
      x.isFinite ∧ (y.isFinite ∨ op = .div ∧ y.isInf) := ⟨hfinite.1, .inl hfinite.2⟩
  cases op with
  | add => exact hboth (isFinite_of_isFinite_add (isFinite_of_isFinite_pack h))
  | sub => exact hboth (isFinite_of_isFinite_sub (isFinite_of_isFinite_pack h))
  | mul => exact hboth (isFinite_of_isFinite_mul (isFinite_of_isFinite_pack h))
  | div =>
      obtain ⟨hx, hy⟩ := isFinite_of_isFinite_div (isFinite_of_isFinite_pack h)
      exact ⟨hx, hy.imp id fun hinfinite => ⟨rfl, hinfinite⟩⟩
  | pow => contradiction

theorem operand_of_squareRoot {x root : Float} (h : squareRoot x = .ok root) :
    x.isFinite := by
  obtain ⟨-, hfinite, -⟩ := squareRoot_eq_ok_iff.mp h
  exact isFinite_of_isFinite_sqrt (isFinite_of_isFinite_pack hfinite)

/-- The number at a place is an operand that its operation absorbs: it is
not finite, and the result still is. The operation stands right in front of
it or right behind it. -/
inductive Absorbed (operators : List (Site × Tree)) (place : Nat) (x : Float) : Prop
  | divisor {site : Site} {left : Tree} {y : Float} :
      (site, .binary .div left (.number x)) ∈ operators → site.position + 1 = place →
        left.value = .ok y → y.isFinite → x.isInf → Absorbed operators place x
  | base {site : Site} {right : Tree} {y : Float} :
      (site, .binary .pow (.number x) right) ∈ operators → site.position = place + 1 →
        right.value = .ok y → (x.pow y).isFinite → Absorbed operators place x
  | exponent {site : Site} {left : Tree} {y : Float} :
      (site, .binary .pow left (.number x)) ∈ operators → site.position + 1 = place →
        left.value = .ok y → (y.pow x).isFinite → Absorbed operators place x

theorem Absorbed.mono {operators others : List (Site × Tree)} {place : Nat} {x : Float}
    (h : Absorbed operators place x) (hsubset : operators ⊆ others) :
    Absorbed others place x := by
  cases h with
  | divisor hmem hplace hleft hy hx => exact .divisor (hsubset hmem) hplace hleft hy hx
  | base hmem hplace hright hpow => exact .base (hsubset hmem) hplace hright hpow
  | exponent hmem hplace hleft hpow => exact .exponent (hsubset hmem) hplace hleft hpow

namespace Tree

section Operands

variable {op : Operation} {x y : Float} {segment start : Nat}

theorem absorbed_left {right : Tree} (hx : ¬ x.isFinite) (hright : right.value = .ok y)
    (hfinite : (op.value x y).isFinite) :
    Absorbed ((binary op (number x) right).operators segment start) start x := by
  by_cases hop : op = .pow
  · subst hop
    exact .base List.mem_cons_self rfl hright hfinite
  · exact absurd (op.operands_of_isFinite_value hop hfinite).1 hx

theorem absorbed_right {left : Tree} (hx : ¬ x.isFinite) (hleft : left.value = .ok y)
    (hfinite : (op.value y x).isFinite) :
    Absorbed ((binary op left (number x)).operators segment start)
      (start + (left.tokens.length + 1)) x := by
  have hmem :
      (⟨segment, op.precedence, start + left.tokens.length⟩, binary op left (number x)) ∈
        (binary op left (number x)).operators segment start :=
    List.mem_append_right _ List.mem_cons_self
  by_cases hop : op = .pow
  · subst hop
    exact .exponent hmem rfl hleft hfinite
  · obtain ⟨hy, hfinite | ⟨rfl, hinfinite⟩⟩ := op.operands_of_isFinite_value hop hfinite
    · exact absurd hfinite hx
    · exact .divisor hmem rfl hleft hy hinfinite

end Operands

theorem eq_number_or_absorbed {tree : Tree} {value x : Float}
    (hvalue : tree.value = .ok value)
    (hx : ¬ x.isFinite) (segment start : Nat) {place : Nat}
    (hplace : tree.tokens[place]? = some (.number x)) :
    tree = .number x ∧ place = 0 ∨
      Absorbed (tree.operators segment start) (start + place) x := by
  induction tree generalizing value segment start place with
  | number y =>
      rw [tokens, List.getElem?_singleton] at hplace
      split at hplace
      · obtain ⟨rfl⟩ := Token.number.inj (Option.some.inj hplace)
        exact .inl ⟨rfl, ‹_›⟩
      · contradiction
  | bracket inner ih =>
      obtain ⟨hinner, hfinite⟩ := value_bracket_eq_ok.mp hvalue
      cases place with
      | zero => exact Token.noConfusion (Option.some.inj hplace)
      | succ place =>
          rw [tokens, List.cons_append, List.getElem?_cons_succ,
            List.getElem?_append] at hplace
          split at hplace
          · rcases ih hinner (start + 1) (start + 1) hplace with ⟨rfl, -⟩ | habsorbed
            · obtain rfl := Except.ok.inj hinner
              exact absurd hfinite hx
            · rw [Nat.add_assoc, Nat.add_comm 1] at habsorbed
              exact .inr habsorbed
          · rw [List.getElem?_singleton] at hplace
            split at hplace
            · exact Token.noConfusion (Option.some.inj hplace)
            · contradiction
  | root inner ih =>
      obtain ⟨y, hinner, hroot⟩ := value_root_eq_ok.mp hvalue
      cases place with
      | zero => exact Token.noConfusion (Option.some.inj hplace)
      | succ place =>
          rcases ih hinner segment (start + 1) hplace with ⟨rfl, -⟩ | habsorbed
          · obtain rfl := Except.ok.inj hinner
            exact absurd (operand_of_squareRoot hroot) hx
          · rw [Nat.add_assoc, Nat.add_comm 1] at habsorbed
            exact .inr (habsorbed.mono (List.subset_cons_self _ _))
  | binary op left right ihleft ihright =>
      obtain ⟨y, z, hleft, hright, hresult⟩ := value_binary_eq_ok.mp hvalue
      obtain ⟨-, hfinite, -⟩ := apply_eq_ok_iff.mp hresult
      right
      rw [tokens, List.getElem?_append] at hplace
      split at hplace
      · rcases ihleft hleft segment start hplace with ⟨rfl, rfl⟩ | habsorbed
        · obtain rfl := Except.ok.inj hleft
          exact absorbed_left hx hright hfinite
        · exact habsorbed.mono (List.subset_append_left _ _)
      · rename_i hle
        obtain ⟨offset, rfl⟩ := Nat.exists_eq_add_of_le (Nat.le_of_not_lt hle)
        rw [Nat.add_sub_cancel_left] at hplace
        cases offset with
        | zero => exact Token.noConfusion (Option.some.inj hplace)
        | succ offset =>
            rcases ihright hright segment (start + left.tokens.length + 1) hplace with
              ⟨rfl, rfl⟩ | habsorbed
            · obtain rfl := Except.ok.inj hright
              exact absorbed_right hx hleft hfinite
            · have heq : start + left.tokens.length + 1 + offset =
                  start + (left.tokens.length + (offset + 1)) := by omega
              rw [heq] at habsorbed
              refine habsorbed.mono fun part hmem => ?_
              exact List.mem_append_right _ (List.mem_cons_of_mem _ hmem)

end Tree

open Calculator.Bracket

theorem exists_resolve_of_hasAnswer {precision : Precision} {tokens : List Token}
    {r : Float}
    (h : HasAnswer precision tokens r) :
    ∃ x, (Bracket.resolve tokens).result = .ok x := by
  rcases h with h | h
  · obtain ⟨x, hx, -⟩ := evaluate_eq_ok.mp h
    exact ⟨x, hx⟩
  · unfold evaluateSegment at h
    split at h
    · contradiction
    · rename_i hnone
      rw [map_eq_pure_bind] at h
      obtain ⟨x, hx, -⟩ := Outcome.exists_of_result_bind_eq_ok h
      have hfree : BracketFree tokens := by
        intro token hmem
        apply eq_false_of_ne_true
        intro htoken
        exact hnone (List.any_eq_true.mpr ⟨token, hmem, htoken⟩)
      rw [← resolve_of_bracketFree hfree] at hx
      exact ⟨x, hx⟩

theorem exists_absorbed_of_hasAnswer {precision : Precision} {tokens : List Token}
    {r : Float} (h : HasAnswer precision tokens r) {place : Nat} {x : Float}
    (hplace : tokens[place]? = some (.number x)) (hx : ¬ x.isFinite) :
    ∃ tree, Derives 1 tokens tree ∧ Absorbed (tree.operators 0 0) place x := by
  obtain ⟨y, hy⟩ := exists_resolve_of_hasAnswer h
  obtain ⟨tree, hderives, hvalue, hfinite⟩ := Bracket.exists_tree_of_resolve hy
  rw [← tokens_of_derives hderives] at hplace
  rcases Tree.eq_number_or_absorbed hvalue hx 0 0 hplace with ⟨rfl, -⟩ | habsorbed
  · obtain rfl := Except.ok.inj hvalue
    exact absurd hfinite hx
  · rw [Nat.zero_add] at habsorbed
    exact ⟨tree, hderives, habsorbed⟩

theorem exists_error_of_no_answer {precision : Precision} {tokens : List Token}
    (h : ∀ r, ¬ HasAnswer precision tokens r) :
    (∃ fault, (evaluate precision tokens).result = .error fault) ∧
      ∃ fault, (evaluateSegment precision tokens).result = .error fault := by
  constructor
  · rcases hresult : (evaluate precision tokens).result with fault | r
    · exact ⟨fault, rfl⟩
    · exact absurd (.inl hresult) (h r)
  · rcases hresult : (evaluateSegment precision tokens).result with fault | r
    · exact ⟨fault, rfl⟩
    · exact absurd (.inr hresult) (h r)

/-- A number that is not finite, wherever it stands in a token sequence, leads to
a fault unless it is the infinite divisor of a finite number or an operand of a
power that is finite. -/
theorem evaluate_not_finite (precision : Precision) {tokens : List Token} {place : Nat}
    {x : Float} (hplace : tokens[place]? = some (.number x)) (hx : ¬ x.isFinite)
    (hkept : ∀ tree, Derives 1 tokens tree → ¬ Absorbed (tree.operators 0 0) place x) :
    (∃ fault, (evaluate precision tokens).result = .error fault) ∧
      ∃ fault, (evaluateSegment precision tokens).result = .error fault := by
  apply exists_error_of_no_answer
  intro r hanswer
  obtain ⟨tree, hderives, habsorbed⟩ := exists_absorbed_of_hasAnswer hanswer hplace hx
  exact hkept tree hderives habsorbed

/-- In `1÷∞+∞` the divisor is absorbed, and the summand is not. -/
theorem evaluate_not_finite_summand :
    ¬ (1 / 0 : Float).isFinite ∧
      (∃ fault, (evaluate .standard [.number 1, .operator (.binary .div),
        .number (1 / 0), .operator (.binary .add), .number (1 / 0)]).result =
          .error fault) ∧
      ∃ fault, (evaluateSegment .standard [.number 1, .operator (.binary .div),
        .number (1 / 0), .operator (.binary .add), .number (1 / 0)]).result =
          .error fault := by
  have hsummand : Derives Operation.add.precedence
      [.number 1, .operator (.binary .div), .number (1 / 0)]
      (.binary .div (.number 1) (.number (1 / 0))) :=
    derives_one (derives_binary_numbers .div 1 (1 / 0))
  have hsum : Derives Operation.add.precedence
      [.number 1, .operator (.binary .div), .number (1 / 0), .operator (.binary .add),
        .number (1 / 0)]
      (.binary .add (.binary .div (.number 1) (.number (1 / 0))) (.number (1 / 0))) :=
    .binary hsummand (derives_of_operand (.number (1 / 0)) (by decide) (by decide))
  have hinfinite : ¬ (1 / 0 : Float).isFinite := by decide
  have hplace : [Token.number 1, .operator (.binary .div), .number (1 / 0),
      .operator (.binary .add), .number (1 / 0)][4]? = some (.number (1 / 0)) := rfl
  refine ⟨hinfinite, evaluate_not_finite .standard hplace hinfinite ?_⟩
  intro tree htree habsorbed
  obtain rfl := derives_unique htree hsum
  rcases habsorbed with ⟨hmem, hplace, -⟩ | ⟨hmem, -⟩ | ⟨hmem, -⟩
  · rcases hmem with _ | ⟨_, _ | ⟨_, ⟨⟩⟩⟩
    contradiction
  · rcases hmem with _ | ⟨_, _ | ⟨_, ⟨⟩⟩⟩
  · rcases hmem with _ | ⟨_, _ | ⟨_, ⟨⟩⟩⟩

/-- Infinity can be divided by: `1÷∞` is zero. -/
theorem evaluate_infinite_divisor :
    ¬ (1 / 0 : Float).isFinite ∧
      (evaluate .standard [.number 1, .operator (.binary .div), .number (1 / 0)]).result =
        .ok 0 ∧
      (evaluateSegment .standard
        [.number 1, .operator (.binary .div), .number (1 / 0)]).result = .ok 0 := by
  have hfree : BracketFree [.number 1, .operator (.binary .div), .number (1 / 0)] := by
    simp [BracketFree, Token.isBracket]
  have hquotient : Operation.apply .div 1 (1 / 0) = .ok 0 := by
    have hzero : Operation.value .div 1 (1 / 0) = 0 := by decide
    rw [Operation.apply, hzero, if_neg (by decide), if_pos (by decide)]
  have hreduce :
      (reduce [.number 1, .operator (.binary .div), .number (1 / 0)]).result =
      .ok 0 := by
    rw [reduce_binary, Outcome.result_bind, result_combine, hquotient]
    have hfinite : (0 : Float).isFinite := by decide
    exact checkFinite_eq_ok_iff.mpr ⟨rfl, hfinite⟩
  have hvalue : (evaluate .standard
      [.number 1, .operator (.binary .div), .number (1 / 0)]).result = .ok 0 := by
    rw [result_evaluate, resolve_of_bracketFree hfree, hreduce]
    rfl
  refine ⟨by decide, hvalue, ?_⟩
  rw [evaluateSegment_of_bracketFree hfree, hvalue]

end Calculator
