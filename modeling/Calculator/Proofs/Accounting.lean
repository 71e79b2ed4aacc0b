import Calculator.Evaluation
import Calculator.Proofs.Pass
import Calculator.Proofs.TreeSemantics
import Mathlib.Algebra.Order.Group.Multiset
import Mathlib.Data.Multiset.Filter

namespace Calculator

/-- The token that a step of a calculation takes out: a bracket is told by
the one that opens it. -/
def Record.reduced? : Record → Option Token
  | .rooted .. => some (.operator .root)
  | .combined op .. => some (.operator (.binary op))
  | .resolved _ => some .opening
  | _ => none

theorem Record.level_eq_trace_iff {entry : Record} :
    entry.level = .trace ↔ entry.reduced?.isSome := by
  cases entry <;> simp [Record.level, Record.reduced?]

def Token.isReduced : Token → Bool
  | .operator _ | .opening => true
  | _ => false

/-- What the records of a log tell to be taken out. -/
def reductions (log : List Record) : Multiset (Option Token) :=
  log.map Record.reduced?

/-- What has to be taken out of a token sequence. -/
def owed (tokens : List Token) : Multiset (Option Token) :=
  (tokens.filter Token.isReduced).map some

@[simp] theorem reductions_nil : reductions [] = 0 := rfl

@[simp] theorem reductions_append (front behind : List Record) :
    reductions (front ++ behind) = reductions front + reductions behind := by
  rw [reductions, List.map_append, ← Multiset.coe_add]
  rfl

@[simp] theorem card_reductions (log : List Record) :
    (reductions log).card = log.length := by
  rw [reductions, Multiset.coe_card, List.length_map]

@[simp] theorem owed_nil : owed [] = 0 := rfl

@[simp] theorem owed_append (front behind : List Token) :
    owed (front ++ behind) = owed front + owed behind := by
  rw [owed, List.filter_append, List.map_append, ← Multiset.coe_add]
  rfl

@[simp] theorem owed_operator_cons (op : Operator) (rest : List Token) :
    owed (.operator op :: rest) = some (.operator op) ::ₘ owed rest := rfl

@[simp] theorem owed_opening_cons (rest : List Token) :
    owed (.opening :: rest) = some .opening ::ₘ owed rest := rfl

@[simp] theorem owed_number_cons (x : Float) (rest : List Token) :
    owed (.number x :: rest) = owed rest := rfl

@[simp] theorem owed_closing_cons (rest : List Token) :
    owed (.closing :: rest) = owed rest := rfl

@[simp] theorem owed_reverse (tokens : List Token) :
    owed tokens.reverse = owed tokens := by
  rw [owed, List.filter_reverse, List.map_reverse, Multiset.coe_reverse]
  rfl

theorem card_owed (tokens : List Token) :
    (owed tokens).card =
      (operatorsOf tokens).length + tokens.countP (fun token => token matches .opening) := by
  induction tokens with
  | nil => rfl
  | cons token rest ih =>
      cases token with
      | number x => simpa using ih
      | operator op => simp [ih]; omega
      | opening => simp [ih]; omega
      | closing => simpa using ih

namespace Outcome

variable {α β : Type} {budget : Multiset (Option Token)} {left : α → Multiset (Option Token)}
  {after : β → Multiset (Option Token)}

/-- No more than `budget` is logged, and exactly what is lacking of it is left for a
value. -/
structure Accounts (budget : Multiset (Option Token))
    (left : α → Multiset (Option Token)) (outcome : Outcome α) : Prop where
  le : reductions outcome.log ≤ budget
  eq : ∀ x, outcome.result = .ok x → reductions outcome.log + left x = budget

theorem accounts_pure {x : α} (h : left x = budget) :
    (pure x : Outcome α).Accounts budget left := by
  refine ⟨Multiset.zero_le budget, ?_⟩
  rintro y ⟨⟩
  rw [log_pure, reductions_nil, zero_add, h]

theorem accounts_fail {fault : Fault} : (fail fault).Accounts budget left :=
  ⟨Multiset.zero_le budget, nofun⟩

theorem accounts_ofExcept {result : Except Fault α} :
    (ofExcept result).Accounts budget fun _ => budget :=
  ⟨Multiset.zero_le budget, fun _ _ => zero_add budget⟩

theorem accounts_record (entry : Record) :
    (record entry).Accounts (entry.reduced? ::ₘ budget) fun _ => budget := by
  have hentry : reductions (record entry).log = {entry.reduced?} := rfl
  constructor
  · rw [hentry, ← Multiset.singleton_add]
    exact Multiset.le_add_right _ _
  · intro _ _
    rw [hentry, Multiset.singleton_add]

theorem Accounts.bind {first : Outcome α} {next : α → Outcome β}
    (hfirst : first.Accounts budget left)
    (hnext : ∀ x, first.result = .ok x → (next x).Accounts (left x) after) :
    (first >>= next).Accounts budget after := by
  rcases hresult : first.result with fault | x
  · constructor
    · rw [log_bind_of_error next hresult]
      exact hfirst.le
    · intro y hy
      rw [result_bind, hresult] at hy
      contradiction
  · have hx := hnext x hresult
    have hbudget := hfirst.eq x hresult
    constructor
    · rw [log_bind_of_ok next hresult, reductions_append, ← hbudget]
      exact Multiset.add_le_add_left hx.le
    · intro y hy
      rw [result_bind_of_ok next hresult] at hy
      rw [log_bind_of_ok next hresult, reductions_append, add_assoc,
        hx.eq y hy, hbudget]

theorem Accounts.frame {outcome : Outcome α} (h : outcome.Accounts budget left)
    (extra : Multiset (Option Token)) :
    outcome.Accounts (budget + extra) fun x => left x + extra := by
  refine ⟨h.le.trans (Multiset.le_add_right budget extra), ?_⟩
  intro x hx
  rw [← add_assoc, h.eq x hx]

end Outcome

variable {rest : Multiset (Option Token)}

theorem takeRoot_accounts (x : Float) :
    (takeRoot x).Accounts (some (.operator .root) ::ₘ rest) fun _ => rest :=
  Outcome.accounts_ofExcept.bind fun root _ =>
    (Outcome.accounts_record (.rooted x root)).bind fun _ _ => Outcome.accounts_pure rfl

theorem combine_accounts (op : Operation) (left right : Float) :
    (combine op left right).Accounts (some (.operator (.binary op)) ::ₘ rest) fun _ => rest :=
  Outcome.accounts_ofExcept.bind fun result _ =>
    (Outcome.accounts_record (.combined op left right result)).bind fun _ _ =>
      Outcome.accounts_pure rfl

theorem operand_accounts (tokens : List Token) :
    (operand tokens).Accounts (owed tokens) fun taken => owed taken.2 := by
  fun_induction operand tokens with
  | case1 => exact Outcome.accounts_fail
  | case2 x behind => exact Outcome.accounts_pure rfl
  | case3 behind ih =>
      have hbehind := ih.frame {some (.operator .root)}
      rw [owed_operator_cons, ← Multiset.singleton_add, add_comm]
      refine hbehind.bind ?_
      rintro ⟨x, after⟩ -
      rw [add_comm, Multiset.singleton_add]
      exact (takeRoot_accounts x).bind fun root _ => Outcome.accounts_pure rfl
  | case4 token behind hnumber hroot => exact Outcome.accounts_fail

namespace Cursor

theorem step_accounts (precedence : Nat) (cursor : Cursor) :
    (cursor.step precedence).Accounts (owed cursor.tokens) fun next => owed next.tokens := by
  have hsteps := cursor.steps precedence
  generalize cursor.step precedence = outcome at hsteps
  cases hsteps with
  | finished done => exact Outcome.accounts_pure rfl
  | passed htoken =>
      apply Outcome.accounts_pure
      simp [tokens]
  | @rooted done behind hprecedence =>
      have hoperand := (operand_accounts (.operator .root :: behind)).frame (owed done)
      rw [tokens, owed_append, owed_reverse, add_comm]
      refine hoperand.bind ?_
      rintro ⟨x, after⟩ -
      apply Outcome.accounts_pure
      simp [tokens, add_comm]
  | @combined done behind x op hprecedence =>
      have hoperand := (operand_accounts behind).frame
        (some (.operator (.binary op)) ::ₘ owed done)
      have hbudget :
          owed (Cursor.tokens ⟨.number x :: done, .operator (.binary op) :: behind⟩) =
            owed behind + some (.operator (.binary op)) ::ₘ owed done := by
        simp [tokens, add_comm]
      rw [hbudget]
      refine hoperand.bind ?_
      rintro ⟨y, after⟩ -
      rw [Multiset.add_cons]
      refine (combine_accounts op x y).bind fun result _ => Outcome.accounts_pure ?_
      simp [tokens, add_comm]
  | missing done behind op => exact Outcome.accounts_fail

end Cursor

theorem passFrom_accounts (precedence : Nat) (cursor : Cursor) :
    (passFrom precedence cursor).Accounts (owed cursor.tokens) owed := by
  induction cursor using passFrom.induct precedence with
  | case1 cursor hrest =>
      rw [passFrom_of_rest_eq_nil hrest]
      exact Outcome.accounts_pure rfl
  | case2 cursor hrest ih =>
      rw [passFrom_of_rest_ne_nil hrest]
      exact (Cursor.step_accounts precedence cursor).bind ih

theorem single_accounts (tokens : List Token) :
    (Outcome.ofExcept (single tokens)).Accounts (owed tokens) fun _ => 0 := by
  unfold single
  split
  · exact Outcome.accounts_fail
  · exact Outcome.accounts_ofExcept
  · exact Outcome.accounts_fail

theorem reduce_accounts (segment : List Token) :
    (reduce segment).Accounts (owed segment) fun _ => 0 := by
  refine (passFrom_accounts 3 (.start segment)).bind fun powers _ => ?_
  refine (passFrom_accounts 2 (.start powers)).bind fun products _ => ?_
  refine (passFrom_accounts 1 (.start products)).bind fun sums _ => ?_
  exact single_accounts sums

namespace Bracket

/-- The tokens in front of a segment, those in it and those in the segments that
wait are all still to be taken out. -/
theorem resolveFrom_accounts (segment : List Token) (waiting : List (List Token))
    (before : List Token) :
    (resolveFrom reduce segment waiting before).Accounts
      (owed before + (owed segment + owed waiting.flatten)) fun _ => 0 := by
  induction before generalizing segment waiting with
  | nil =>
      rw [resolveFrom_nil]
      split
      · rename_i hwaiting
        rw [List.isEmpty_iff] at hwaiting
        rw [hwaiting, List.flatten_nil, owed_nil, zero_add, add_zero]
        exact reduce_accounts segment
      · exact Outcome.accounts_fail
  | cons token before ih =>
      cases token with
      | number x => exact ih (.number x :: segment) waiting
      | operator op =>
          have hnext := ih (.operator op :: segment) waiting
          rw [owed_operator_cons, Multiset.cons_add, Multiset.add_cons] at hnext
          rw [owed_operator_cons, Multiset.cons_add]
          exact hnext
      | closing =>
          have hnext := ih [] (segment :: waiting)
          rw [List.flatten_cons, owed_append, owed_nil, zero_add] at hnext
          exact hnext
      | opening =>
          cases waiting with
          | nil => exact Outcome.accounts_fail
          | cons outer waiting =>
              have hvalue := (reduce_accounts segment).frame
                (some .opening ::ₘ (owed before + (owed outer + owed waiting.flatten)))
              have hbudget : owed (.opening :: before) +
                  (owed segment + owed (outer :: waiting).flatten) = owed segment +
                    some .opening ::ₘ (owed before + (owed outer + owed waiting.flatten)) := by
                simp [add_left_comm]
              rw [hbudget, resolveFrom_opening_cons]
              refine hvalue.bind fun x _ => ?_
              rw [zero_add]
              exact (Outcome.accounts_record (.resolved x)).bind fun _ _ =>
                ih (.number x :: outer) waiting

theorem resolve_accounts (tokens : List Token) :
    (resolve tokens).Accounts (owed tokens) fun _ => 0 := by
  have h := resolveFrom_accounts [] [] tokens.reverse
  rw [owed_reverse, List.flatten_nil, owed_nil, add_zero, add_zero] at h
  exact h

end Bracket

theorem evaluate_accounts (precision : Precision) (tokens : List Token) :
    (evaluate precision tokens).Accounts (owed tokens) fun _ => 0 := by
  rw [evaluate, map_eq_pure_bind]
  exact (Bracket.resolve_accounts tokens).bind fun _ _ => Outcome.accounts_pure rfl

/-- An evaluation traces no more than one step for each operator and each opening
bracket, and nothing else; where it has a value, exactly one. -/
theorem evaluate_reductions (precision : Precision) (tokens : List Token) :
    (∀ entry ∈ (evaluate precision tokens).log, entry.level = .trace) ∧
      reductions (evaluate precision tokens).log ≤ owed tokens ∧
      (evaluate precision tokens).log.length ≤
        (operatorsOf tokens).length + tokens.countP (fun token => token matches .opening) ∧
      ∀ r, (evaluate precision tokens).result = .ok r →
        reductions (evaluate precision tokens).log = owed tokens ∧
        (evaluate precision tokens).log.length =
          (operatorsOf tokens).length + tokens.countP (fun token => token matches .opening) := by
  have haccounts := evaluate_accounts precision tokens
  refine ⟨?_, haccounts.le, ?_, ?_⟩
  · intro entry hentry
    have hreduced : entry.reduced? ∈ owed tokens :=
      Multiset.mem_of_le haccounts.le (Multiset.mem_coe.mpr (List.mem_map_of_mem hentry))
    obtain ⟨token, -, htoken⟩ := List.mem_map.mp (Multiset.mem_coe.mp hreduced)
    rw [Record.level_eq_trace_iff, ← htoken]
    rfl
  · rw [← card_owed, ← card_reductions]
    exact Multiset.card_le_card haccounts.le
  · intro r hr
    have heq : reductions (evaluate precision tokens).log = owed tokens := by
      rw [← haccounts.eq r hr, add_zero]
    refine ⟨heq, ?_⟩
    rw [← card_owed, ← card_reductions, heq]

/-- The root is traced, the sum and the bracket around it. -/
theorem evaluate_reductions_bracket :
    (evaluate .exact [.opening, .operator .root, .number 4, .operator (.binary .add),
        .number 1, .closing]).result = .ok 3 ∧
      (evaluate .exact [.opening, .operator .root, .number 4, .operator (.binary .add),
        .number 1, .closing]).log.length = 3 := by
  have hroot : Derives Operation.add.precedence [.operator .root, .number 4]
      (.root (.number 4)) :=
    derives_one (.root (.number 4))
  have hone : Derives (Operation.add.precedence + 1) [.number 1] (.number 1) :=
    derives_of_operand (.number 1) (by decide) (by decide)
  have hderives :
      Derives 1 [.opening, .operator .root, .number 4, .operator (.binary .add),
      .number 1, .closing] (.bracket (.binary .add (.root (.number 4)) (.number 1))) :=
    derives_one (.bracket (.binary hroot hone))
  have htwo : squareRoot 4 = .ok 2 :=
    squareRoot_eq_ok_iff.mpr ⟨by decide, by decide +kernel, by decide +kernel⟩
  have hsum : Operation.add.apply 2 1 = .ok 3 :=
    apply_eq_ok_iff.mpr ⟨by decide, by decide +kernel, by decide +kernel⟩
  have hvalue : (Tree.bracket (.binary .add (.root (.number 4)) (.number 1))).value =
      .ok 3 := by
    refine Tree.value_bracket_eq_ok.mpr ⟨Tree.value_binary_eq_ok.mpr ?_, by decide⟩
    exact ⟨2, 1, Tree.value_root_eq_ok.mpr ⟨4, rfl, htwo⟩, rfl, hsum⟩
  have hround : (3 : Float) = Precision.exact.round 3 := by decide
  have hresult : (evaluate .exact [.opening, .operator .root, .number 4,
      .operator (.binary .add), .number 1, .closing]).result = .ok 3 :=
    evaluate_eq_ok.mpr ⟨3, result_resolve_of_value hderives hvalue (by decide), hround⟩
  have hlog := (evaluate_reductions .exact [.opening, .operator .root, .number 4,
    .operator (.binary .add), .number 1, .closing]).2.2.2 3 hresult
  exact ⟨hresult, hlog.2⟩

end Calculator
