import Calculator.Reduction

namespace Calculator

def takeRoots : Nat → Float → Except Fault Float
  | 0, x => .ok x
  | count + 1, x => do squareRoot (← takeRoots count x)

theorem operand_roots (count : Nat) (x : Float) (rest : List Token) :
    (operand (List.replicate count (.operator .root) ++ .number x :: rest)).result =
      (takeRoots count x).map (·, rest) := by
  induction count with
  | zero => rfl
  | succ count ih =>
      rw [List.replicate_succ, List.cons_append, operand, Outcome.result_bind, ih,
        takeRoots]
      rcases takeRoots count x with fault | y
      · rfl
      · change (takeRoot y >>= fun root => (return (root, rest) : Outcome _)).result = _
        rw [Outcome.result_bind, result_takeRoot]
        rcases hroot : squareRoot y with fault | root
        · change _ = (squareRoot y).map _
          rw [hroot]
          rfl
        · change _ = (squareRoot y).map _
          rw [hroot]
          rfl

theorem exists_roots_of_operand {tokens rest : List Token} {x : Float}
    (h : (operand tokens).result = .ok (x, rest)) :
    ∃ count y, tokens = List.replicate count (.operator .root) ++ .number y :: rest ∧
      takeRoots count y = .ok x := by
  fun_induction operand tokens generalizing x rest with
  | case1 => contradiction
  | case2 y tail =>
      obtain ⟨rfl, rfl⟩ := Prod.mk.inj (Except.ok.inj h)
      exact ⟨0, y, rfl, rfl⟩
  | case3 tail ih =>
      obtain ⟨⟨y, after⟩, hoperand, h⟩ := Outcome.exists_of_result_bind_eq_ok h
      obtain ⟨root, hroot, h⟩ := Outcome.exists_of_result_bind_eq_ok h
      obtain ⟨rfl, rfl⟩ := Prod.mk.inj (Except.ok.inj h)
      obtain ⟨count, z, rfl, hroots⟩ := ih hoperand
      refine ⟨count + 1, z, rfl, ?_⟩
      rw [takeRoots, hroots]
      rw [result_takeRoot] at hroot
      exact hroot
  | case4 => contradiction

@[simp] theorem Operator.precedence_binary (op : Operation) :
    (Operator.binary op).precedence = op.precedence := rfl

namespace Cursor

/-- What one step of the pass for a precedence does at each place. -/
inductive Steps (precedence : Nat) : Cursor → Outcome Cursor → Prop
  | finished (done : List Token) : Steps precedence ⟨done, []⟩ (return ⟨done, []⟩)
  | passed {done rest : List Token} {token : Token} :
      (∀ op, token = .operator op → op.precedence ≠ precedence) →
        Steps precedence ⟨done, token :: rest⟩ (return ⟨token :: done, rest⟩)
  | rooted {done rest : List Token} : Operator.root.precedence = precedence →
      Steps precedence ⟨done, .operator .root :: rest⟩
        (operand (.operator .root :: rest) >>= fun taken =>
          return ⟨.number taken.1 :: done, taken.2⟩)
  | combined {done rest : List Token} {left : Float} {op : Operation} :
      op.precedence = precedence →
        Steps precedence ⟨.number left :: done, .operator (.binary op) :: rest⟩
          (operand rest >>= fun taken => combine op left taken.1 >>= fun result =>
            return ⟨.number result :: done, taken.2⟩)
  | missing (done rest : List Token) (op : Operation) :
      Steps precedence ⟨done, .operator (.binary op) :: rest⟩
        (.fail (.missingOperandBefore op))

theorem steps (precedence : Nat) (cursor : Cursor) :
    Steps precedence cursor (cursor.step precedence) := by
  obtain ⟨done, rest⟩ := cursor
  unfold step
  split
  · rename_i heq
    obtain rfl : rest = _ := heq
    exact .finished done
  · rename_i behind heq
    obtain rfl : rest = _ := heq
    split
    · exact .rooted ‹_›
    · rename_i hprecedence
      refine .passed ?_
      rintro op ⟨⟩
      exact hprecedence
  · rename_i op behind heq
    obtain rfl : rest = _ := heq
    split
    · rename_i hprecedence
      split
      · rename_i left before hdone
        obtain rfl : done = _ := hdone
        exact .combined hprecedence
      · exact .missing done behind op
    · rename_i hprecedence
      refine .passed ?_
      rintro op ⟨⟩
      exact hprecedence
  · rename_i token behind hroot hbinary heq
    obtain rfl : rest = _ := heq
    refine .passed ?_
    rintro (op | _) rfl
    · exact (hbinary op rfl).elim
    · exact (hroot rfl).elim

/-- A step passes over a token that is no operator of the precedence asked for, or
it takes an operand behind a root, or it carries out an operation. -/
theorem step_cases {precedence : Nat} {cursor next : Cursor} (hrest : cursor.rest ≠ [])
    (h : (cursor.step precedence).result = .ok next) :
    (∃ token rest, cursor.rest = token :: rest ∧
        (∀ op, token = .operator op → op.precedence ≠ precedence) ∧
        next = ⟨token :: cursor.done, rest⟩) ∨
      (precedence = 3 ∧ ∃ x rest, (operand cursor.rest).result = .ok (x, rest) ∧
        next = ⟨.number x :: cursor.done, rest⟩) ∨
      ∃ op left right result done behind rest, Operation.precedence op = precedence ∧
        cursor.done = .number left :: done ∧
        cursor.rest = .operator (.binary op) :: behind ∧
        (operand behind).result = .ok (right, rest) ∧ op.apply left right = .ok result ∧
        next = ⟨.number result :: done, rest⟩ := by
  have hsteps := cursor.steps precedence
  generalize cursor.step precedence = outcome at h hsteps
  cases hsteps with
  | finished done => contradiction
  | passed htoken =>
      obtain rfl := Except.ok.inj h
      exact .inl ⟨_, _, rfl, htoken, rfl⟩
  | rooted hprecedence =>
      obtain ⟨⟨x, after⟩, hoperand, h⟩ := Outcome.exists_of_result_bind_eq_ok h
      obtain rfl := Except.ok.inj h
      exact .inr (.inl ⟨hprecedence.symm, x, after, hoperand, rfl⟩)
  | combined hprecedence =>
      obtain ⟨⟨right, after⟩, hoperand, h⟩ := Outcome.exists_of_result_bind_eq_ok h
      obtain ⟨result, hresult, h⟩ := Outcome.exists_of_result_bind_eq_ok h
      obtain rfl := Except.ok.inj h
      rw [result_combine] at hresult
      exact .inr (.inr ⟨_, _, right, result, _, _, after, hprecedence, rfl, rfl, hoperand,
        hresult, rfl⟩)
  | missing done behind op => contradiction

end Cursor

theorem passFrom_keeps {precedence : Nat} {P : Cursor → Prop}
    (hstep : ∀ cursor next, P cursor → cursor.rest ≠ [] →
      (cursor.step precedence).result = .ok next → P next)
    {cursor : Cursor} {tokens : List Token} (hstart : P cursor)
    (h : (passFrom precedence cursor).result = .ok tokens) :
    ∃ done, P ⟨done, []⟩ ∧ tokens = done.reverse := by
  induction cursor using passFrom.induct precedence with
  | case1 cursor hrest =>
      rw [passFrom_of_rest_eq_nil hrest] at h
      obtain rfl := Except.ok.inj h
      refine ⟨cursor.done, ?_, ?_⟩
      · rw [← hrest]
        exact hstart
      · rw [Cursor.tokens, hrest, List.append_nil]
  | case2 cursor hrest ih =>
      rw [passFrom_of_rest_ne_nil hrest] at h
      obtain ⟨next, hnext, h⟩ := Outcome.exists_of_result_bind_eq_ok h
      exact ih next hnext (hstep cursor next hstart hrest hnext) h

/-- The operators of a token sequence in their order. -/
def operatorsOf (tokens : List Token) : List Operator :=
  tokens.filterMap Token.operator?

theorem mem_operatorsOf {op : Operator} {tokens : List Token} :
    op ∈ operatorsOf tokens ↔ .operator op ∈ tokens := by
  rw [operatorsOf, List.mem_filterMap]
  constructor
  · rintro ⟨token, hmem, htoken⟩
    cases token with
    | operator other =>
        obtain rfl := Option.some.inj htoken
        exact hmem
    | number x => contradiction
    | opening => contradiction
    | closing => contradiction
  · intro hmem
    exact ⟨_, hmem, rfl⟩

@[simp] theorem operatorsOf_append (front behind : List Token) :
    operatorsOf (front ++ behind) = operatorsOf front ++ operatorsOf behind :=
  List.filterMap_append

@[simp] theorem operatorsOf_nil : operatorsOf [] = [] := rfl

@[simp] theorem operatorsOf_operator_cons (op : Operator) (rest : List Token) :
    operatorsOf (.operator op :: rest) = op :: operatorsOf rest := rfl

@[simp] theorem operatorsOf_number_cons (x : Float) (rest : List Token) :
    operatorsOf (.number x :: rest) = operatorsOf rest := rfl

@[simp] theorem operatorsOf_opening_cons (rest : List Token) :
    operatorsOf (.opening :: rest) = operatorsOf rest := rfl

@[simp] theorem operatorsOf_closing_cons (rest : List Token) :
    operatorsOf (.closing :: rest) = operatorsOf rest := rfl

theorem exists_roots_of_operatorsOf_le {precedence : Nat} {tokens rest : List Token}
    {x : Float}
    (hle : ∀ op ∈ operatorsOf tokens, op.precedence ≤ precedence)
    (hprecedence : precedence ≤ 3) (h : (operand tokens).result = .ok (x, rest)) :
    ∃ count y, tokens = List.replicate count (.operator .root) ++ .number y :: rest ∧
      takeRoots count y = .ok x ∧ (count = 0 ∨ precedence = 3) := by
  obtain ⟨count, y, rfl, hroots⟩ := exists_roots_of_operand h
  refine ⟨count, y, rfl, hroots, ?_⟩
  cases count with
  | zero => exact .inl rfl
  | succ count =>
      have hroot : 3 ≤ precedence := hle .root (mem_operatorsOf.mpr List.mem_cons_self)
      exact .inr (Nat.le_antisymm hprecedence hroot)

theorem operatorsOf_roots (count : Nat) (x : Float) (rest : List Token) :
    operatorsOf (List.replicate count (.operator .root) ++ .number x :: rest) =
      List.replicate count .root ++ operatorsOf rest := by
  rw [operatorsOf_append, operatorsOf_number_cons]
  congr 1
  induction count with
  | zero => rfl
  | succ count ih =>
      rw [List.replicate_succ, List.replicate_succ, operatorsOf_operator_cons, ih]

/-- What is left of the operators of a token sequence after the pass for a
precedence. -/
def withoutPrecedence (precedence : Nat) (operators : List Operator) : List Operator :=
  operators.filter fun op => op.precedence ≠ precedence

/-- No operator above a precedence is still to come, and those passed over and those
that will be make up `left`. -/
structure Cursor.Leaves (precedence : Nat) (left : List Operator) (cursor : Cursor) :
    Prop where
  le : ∀ op ∈ operatorsOf cursor.rest, op.precedence ≤ precedence
  operators : operatorsOf cursor.done.reverse ++
    withoutPrecedence precedence (operatorsOf cursor.rest) = left

theorem withoutPrecedence_operand {precedence : Nat} {tokens rest : List Token}
    {x : Float}
    (hle : ∀ op ∈ operatorsOf tokens, op.precedence ≤ precedence)
    (hprecedence : precedence ≤ 3) (h : (operand tokens).result = .ok (x, rest)) :
    withoutPrecedence precedence (operatorsOf rest) =
        withoutPrecedence precedence (operatorsOf tokens) ∧
      ∀ op ∈ operatorsOf rest, op.precedence ≤ precedence := by
  obtain ⟨count, y, rfl, -, hroots⟩ := exists_roots_of_operatorsOf_le hle hprecedence h
  rw [operatorsOf_roots] at hle ⊢
  constructor
  · rcases hroots with rfl | rfl
    · rfl
    · have hnone : withoutPrecedence 3 (List.replicate count .root) = [] :=
        List.filter_eq_nil_iff.mpr fun op hmem => by
          rw [List.eq_of_mem_replicate hmem]
          decide
      rw [withoutPrecedence, withoutPrecedence, List.filter_append]
      rw [withoutPrecedence] at hnone
      rw [hnone, List.nil_append]
  · intro op hmem
    exact hle op (List.mem_append_right _ hmem)

theorem Cursor.leaves_of_step {precedence : Nat} {left : List Operator}
    {cursor next : Cursor}
    (hprecedence : precedence ≤ 3) (h : cursor.Leaves precedence left)
    (hrest : cursor.rest ≠ [])
    (hstep : (cursor.step precedence).result = .ok next) :
    next.Leaves precedence left := by
  obtain ⟨done, rest⟩ := cursor
  obtain ⟨hle, hoperators⟩ := h
  rcases step_cases hrest hstep with ⟨token, behind, rfl, htoken, rfl⟩ |
    ⟨rfl, x, behind, hoperand, rfl⟩ |
    ⟨op, x, y, result, before, tokens, behind, rfl, rfl, rfl, hoperand, -, rfl⟩
  · cases token with
    | operator op =>
        refine ⟨fun other hmem => hle other (List.mem_cons_of_mem _ hmem), ?_⟩
        rw [← hoperators]
        simp [withoutPrecedence, htoken op rfl]
    | number x => exact ⟨hle, by simpa using hoperators⟩
    | opening => exact ⟨hle, by simpa using hoperators⟩
    | closing => exact ⟨hle, by simpa using hoperators⟩
  · obtain ⟨heq, hle⟩ := withoutPrecedence_operand hle hprecedence hoperand
    refine ⟨hle, ?_⟩
    rw [← hoperators, heq]
    simp
  · have hbehind : ∀ other ∈ operatorsOf tokens, other.precedence ≤ op.precedence :=
      fun other hmem => hle other (List.mem_cons_of_mem _ hmem)
    obtain ⟨heq, hle⟩ := withoutPrecedence_operand hbehind hprecedence hoperand
    refine ⟨hle, ?_⟩
    rw [← hoperators, heq]
    simp [withoutPrecedence, Operator.precedence_binary]

theorem operatorsOf_pass {precedence : Nat} {tokens after : List Token}
    (hprecedence : precedence ≤ 3)
    (hle : ∀ op ∈ operatorsOf tokens, op.precedence ≤ precedence)
    (h : (pass precedence tokens).result = .ok after) :
    operatorsOf after = withoutPrecedence precedence (operatorsOf tokens) := by
  have hstart : (Cursor.start tokens).Leaves precedence
      (withoutPrecedence precedence (operatorsOf tokens)) := ⟨hle, rfl⟩
  obtain ⟨done, hend, rfl⟩ := passFrom_keeps
    (fun _ _ hkept hrest hstep => Cursor.leaves_of_step hprecedence hkept hrest hstep) hstart h
  simpa [withoutPrecedence] using hend.operators

theorem operatorsOf_le_of_pass {precedence : Nat} {tokens after : List Token}
    (hprecedence : precedence + 1 ≤ 3)
    (hle : ∀ op ∈ operatorsOf tokens, op.precedence ≤ precedence + 1)
    (h : (pass (precedence + 1) tokens).result = .ok after) :
    ∀ op ∈ operatorsOf after, op.precedence ≤ precedence := by
  intro op hmem
  rw [operatorsOf_pass hprecedence hle h, withoutPrecedence, List.mem_filter] at hmem
  obtain ⟨hmem, hne⟩ := hmem
  exact Nat.le_of_lt_succ (Nat.lt_of_le_of_ne (hle op hmem) (of_decide_eq_true hne))

end Calculator
