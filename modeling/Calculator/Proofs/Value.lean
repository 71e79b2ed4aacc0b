import Calculator.Proofs.Grammar

namespace Calculator

theorem Outcome.bind_congr_of_ok {α β : Type} {first : Outcome α}
    {next other : α → Outcome β}
    (h : ∀ value, first.result = .ok value → next value = other value) :
    first >>= next = first >>= other := by
  rcases first with ⟨log, fault | value⟩
  · rfl
  · have hnext := h value rfl
    change Outcome.bind _ next = Outcome.bind _ other
    simp only [Outcome.bind, hnext]

theorem Outcome.result_bind_of_ok {α β : Type} {first : Outcome α} {value : α}
    (next : α → Outcome β) (h : first.result = .ok value) :
    (first >>= next).result = (next value).result := by
  rw [Outcome.result_bind, h]
  rfl

theorem Outcome.error_of_result_bind_eq_error {α β : Type} {first : Outcome α}
    {next : α → Outcome β} {fault : Fault}
    (h : (first >>= next).result = .error fault) :
    first.result = .error fault ∨
      ∃ middle, first.result = .ok middle ∧ (next middle).result = .error fault := by
  rcases first with ⟨log, cause | middle⟩
  · obtain rfl := Except.error.inj h
    exact .inl rfl
  · exact .inr ⟨middle, rfl, h⟩

theorem bind_eq_ok_iff {α β : Type} {first : Except Fault α} {next : α → Except Fault β}
    {y : β} : first >>= next = .ok y ↔ ∃ x, first = .ok x ∧ next x = .ok y := by
  constructor
  · intro h
    rcases first with fault | x
    · contradiction
    · exact ⟨x, rfl, h⟩
  · rintro ⟨x, rfl, h⟩
    exact h

theorem checkFinite_eq_ok_iff {x y : Float} : checkFinite x = .ok y ↔ x = y ∧
    y.isFinite := by
  unfold checkFinite
  split
  · rename_i hfinite
    constructor
    · intro h
      obtain rfl := Except.ok.inj h
      exact ⟨rfl, hfinite⟩
    · rintro ⟨rfl, -⟩
      rfl
  · rename_i hfinite
    constructor
    · intro h
      contradiction
    · rintro ⟨rfl, h⟩
      exact absurd h hfinite

theorem squareRoot_eq_ok_iff {x y : Float} :
    squareRoot x = .ok y ↔ ¬ x < 0 ∧ x.sqrt.isFinite ∧ y = x.sqrt := by
  unfold squareRoot
  by_cases hnegative : x < 0
  · rw [if_pos hnegative]
    exact iff_of_false (by rintro ⟨⟩) fun h => h.1 hnegative
  · rw [if_neg hnegative, and_iff_right hnegative]
    by_cases hfinite : x.sqrt.isFinite
    · rw [if_pos hfinite, and_iff_right hfinite, Except.ok.injEq, eq_comm]
    · rw [if_neg hfinite]
      exact iff_of_false (by rintro ⟨⟩) fun h => hfinite h.1

theorem apply_eq_ok_iff {op : Operation} {x y z : Float} :
    op.apply x y = .ok z ↔
      ¬ (op = .div ∧ y == 0) ∧ (op.value x y).isFinite ∧ z = op.value x y := by
  unfold Operation.apply
  by_cases hzero : op = .div ∧ y == 0
  · rw [if_pos hzero]
    exact iff_of_false (by rintro ⟨⟩) fun h => h.1 hzero
  · rw [if_neg hzero, and_iff_right hzero]
    by_cases hfinite : (op.value x y).isFinite
    · rw [if_pos hfinite, and_iff_right hfinite, Except.ok.injEq, eq_comm]
    · rw [if_neg hfinite]
      exact iff_of_false (by rintro ⟨⟩) fun h => hfinite h.1

namespace Tree

theorem value_bracket_eq_ok {inner : Tree} {x : Float} :
    (bracket inner).value = .ok x ↔ inner.value = .ok x ∧ x.isFinite := by
  rw [value, bind_eq_ok_iff]
  constructor
  · rintro ⟨y, hvalue, hfinite⟩
    obtain ⟨rfl, hfinite⟩ := checkFinite_eq_ok_iff.mp hfinite
    exact ⟨hvalue, hfinite⟩
  · rintro ⟨hvalue, hfinite⟩
    exact ⟨x, hvalue, checkFinite_eq_ok_iff.mpr ⟨rfl, hfinite⟩⟩

theorem value_root_eq_ok {inner : Tree} {x : Float} :
    (root inner).value = .ok x ↔ ∃ y, inner.value = .ok y ∧ squareRoot y = .ok x := by
  rw [value, bind_eq_ok_iff]

theorem value_binary_eq_ok {op : Operation} {left right : Tree} {z : Float} :
    (binary op left right).value = .ok z ↔
      ∃ x y, left.value = .ok x ∧ right.value = .ok y ∧ op.apply x y = .ok z := by
  rw [value, bind_eq_ok_iff]
  constructor
  · rintro ⟨x, hx, h⟩
    obtain ⟨y, hy, h⟩ := bind_eq_ok_iff.mp h
    exact ⟨x, y, hx, hy, h⟩
  · rintro ⟨x, y, hx, hy, h⟩
    exact ⟨x, hx, bind_eq_ok_iff.mpr ⟨y, hy, h⟩⟩

theorem value_eq_ok_iff {tree : Tree} {x : Float} : tree.value = .ok x ↔
    tree.Evaluates x := by
  induction tree generalizing x with
  | number y =>
      rw [value, evaluates_number_iff, Except.ok.injEq, eq_comm]
  | bracket inner ih =>
      rw [value_bracket_eq_ok, evaluates_bracket_iff, ih]
  | root inner ih =>
      rw [value_root_eq_ok, evaluates_root_iff]
      simp only [ih, squareRoot_eq_ok_iff]
  | binary op left right ihleft ihright =>
      rw [value_binary_eq_ok, evaluates_binary_iff]
      simp only [ihleft, ihright, apply_eq_ok_iff]

end Tree

end Calculator
