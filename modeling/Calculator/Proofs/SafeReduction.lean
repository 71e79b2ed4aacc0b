import Calculator.Proofs.Admission
import Calculator.Proofs.Failures
import Calculator.Proofs.Substitution

namespace Calculator

def Record.numbers : Record → List Float
  | .rooted x root => [x, root]
  | .combined _ left right result => [left, right, result]
  | .resolved value => [value]
  | _ => []

/-- The faults that the evaluation of an expression can end in. -/
inductive Fault.OfEvaluation : Fault → Prop
  | divisionByZero : OfEvaluation .divisionByZero
  | emptyExpression : OfEvaluation .emptyExpression
  | missingOperandBefore (op : Operation) : OfEvaluation (.missingOperandBefore op)
  | missingOperandAtEnd : OfEvaluation .missingOperandAtEnd
  | missingOperator (tokens : List Token) : OfEvaluation (.missingOperator tokens)
  | negativeRoot (x : Float) : OfEvaluation (.negativeRoot x)
  | resultNotFinite (op : Operation) (left right : Float) :
      OfEvaluation (.resultNotFinite op left right)

namespace Outcome

variable {α β : Type} {P : α → Prop} {Q : β → Prop}

/-- Only finite numbers are logged, a value is as `P` says, and a fault is one that
evaluation can end in. -/
structure Safe (P : α → Prop) (outcome : Outcome α) : Prop where
  log : ∀ entry ∈ outcome.log, ∀ x ∈ entry.numbers, x.isFinite
  value : ∀ x, outcome.result = .ok x → P x
  fault : ∀ fault, outcome.result = .error fault → fault.OfEvaluation

theorem safe_ofExcept {result : Except Fault α} (hvalue : ∀ x, result = .ok x → P x)
    (hfault : ∀ fault, result = .error fault → fault.OfEvaluation) :
    (ofExcept result).Safe P :=
  ⟨fun _ hentry => absurd hentry List.not_mem_nil, hvalue, hfault⟩

theorem safe_pure {x : α} (h : P x) : (pure x : Outcome α).Safe P := by
  refine safe_ofExcept ?_ nofun
  rintro y ⟨⟩
  exact h

theorem safe_fail {fault : Fault} (h : fault.OfEvaluation) : (fail fault).Safe P := by
  refine safe_ofExcept nofun ?_
  rintro other ⟨⟩
  exact h

theorem safe_record {entry : Record} (h : ∀ x ∈ entry.numbers, x.isFinite) :
    (record entry).Safe fun _ => True := by
  refine ⟨?_, fun _ _ => trivial, nofun⟩
  intro other hother
  rw [List.mem_singleton.mp hother]
  exact h

theorem Safe.bind {first : Outcome α} {next : α → Outcome β} (hfirst : first.Safe P)
    (hnext : ∀ x, first.result = .ok x → P x → (next x).Safe Q) :
    (first >>= next).Safe Q := by
  rcases hresult : first.result with fault | x
  · have hbind : (first >>= next).result = .error fault := by
      rw [result_bind, hresult]
      rfl
    refine ⟨?_, ?_, ?_⟩
    · rw [log_bind_of_error next hresult]
      exact hfirst.log
    · intro y hy
      rw [hbind] at hy
      contradiction
    · intro other hother
      rw [hbind] at hother
      obtain rfl := Except.error.inj hother
      exact hfirst.fault fault hresult
  · have hx := hnext x hresult (hfirst.value x hresult)
    have hbind : (first >>= next).result = (next x).result :=
      result_bind_of_ok next hresult
    refine ⟨?_, ?_, ?_⟩
    · rw [log_bind_of_ok next hresult]
      intro entry hentry
      rcases List.mem_append.mp hentry with hentry | hentry
      · exact hfirst.log entry hentry
      · exact hx.log entry hentry
    · intro y hy
      rw [hbind] at hy
      exact hx.value y hy
    · intro fault hfault
      rw [hbind] at hfault
      exact hx.fault fault hfault

end Outcome

open Calculator.Bracket
open Calculator.Shape

/-- Tokens to work on: no bracket, only finite numbers, and no operation right
behind an operator. -/
structure Workable (tokens : List Token) : Prop where
  bracketFree : BracketFree tokens
  finite : AllFinite tokens
  consecutive : consecutive? tokens = none

theorem workable_nil : Workable [] :=
  ⟨bracketFree_nil, nofun, rfl⟩

theorem Workable.of_append {front behind : List Token}
    (h : Workable (front ++ behind)) :
    Workable front ∧ Workable behind := by
  obtain ⟨hfrontfree, hbehindfree⟩ := bracketFree_append.mp h.bracketFree
  obtain ⟨hfrontfinite, hbehindfinite⟩ := allFinite_append.mp h.finite
  obtain ⟨hfront, hbehind⟩ := of_consecutive?_append h.consecutive
  exact ⟨⟨hfrontfree, hfrontfinite, hfront⟩, ⟨hbehindfree, hbehindfinite, hbehind⟩⟩

theorem Workable.of_cons {token : Token} {rest : List Token}
    (h : Workable (token :: rest)) :
    Workable rest := by
  have happend : Workable ([token] ++ rest) := h
  exact happend.of_append.2

theorem workable_append_number {front behind : List Token} {x : Float}
    (hfront : Workable front)
    (hx : x.isFinite) (hbehind : Workable behind) :
    Workable (front ++ .number x :: behind) := by
  refine ⟨?_, ?_, ?_⟩
  · rw [bracketFree_append, bracketFree_cons]
    exact ⟨hfront.bracketFree, rfl, hbehind.bracketFree⟩
  · rw [allFinite_append]
    refine ⟨hfront.finite, ?_⟩
    intro y hy
    rcases List.mem_cons.mp hy with hy | hy
    · rw [Token.number.inj hy]
      exact hx
    · exact hbehind.finite y hy
  · refine consecutive?_append hfront.consecutive ?_ (.inr rfl)
    exact consecutive?_cons_eq_none.mpr ⟨.inl rfl, hbehind.consecutive⟩

theorem Workable.isFinite {front behind : List Token} {x : Float}
    (h : Workable (front ++ .number x :: behind)) : x.isFinite :=
  h.finite x (List.mem_append_right _ List.mem_cons_self)

theorem Workable.leading?_eq_none {op : Operator} {rest : List Token}
    (h : Workable (.operator op :: rest)) : leading? rest = none :=
  (consecutive?_cons_eq_none.mp h.consecutive).1.resolve_left (Option.some_ne_none op)

theorem takeRoot_safe {x : Float} (h : x.isFinite) :
    (takeRoot x).Safe fun root => root.isFinite := by
  refine Outcome.Safe.bind (P := fun root => root.isFinite) (Outcome.safe_ofExcept ?_ ?_) ?_
  · intro root hroot
    exact isFinite_of_squareRoot hroot
  · intro fault hfault
    obtain ⟨-, rfl⟩ := (squareRoot_eq_error_iff h).mp hfault
    exact .negativeRoot x
  · rintro root - hroot
    refine Outcome.Safe.bind (Outcome.safe_record ?_) fun _ _ _ => Outcome.safe_pure hroot
    rintro y (_ | ⟨_, _ | ⟨_, ⟨⟩⟩⟩)
    · exact h
    · exact hroot

theorem combine_safe {op : Operation} {left right : Float} (hleft : left.isFinite)
    (hright : right.isFinite) :
    (combine op left right).Safe fun result => result.isFinite := by
  refine Outcome.Safe.bind (P := fun result => result.isFinite) (Outcome.safe_ofExcept ?_ ?_) ?_
  · intro result hresult
    exact isFinite_of_apply hresult
  · intro fault hfault
    rcases apply_eq_error_iff.mp hfault with ⟨-, rfl⟩ | ⟨-, -, rfl⟩
    · exact .divisionByZero
    · exact .resultNotFinite op left right
  · rintro result - hresult
    refine Outcome.Safe.bind (Outcome.safe_record ?_) fun _ _ _ => Outcome.safe_pure hresult
    rintro y (_ | ⟨_, _ | ⟨_, _ | ⟨_, ⟨⟩⟩⟩⟩)
    · exact hleft
    · exact hright
    · exact hresult

theorem operand_safe {tokens : List Token} (h : Workable tokens)
    (hleading : leading? tokens = none) :
    (operand tokens).Safe fun taken => taken.1.isFinite ∧ Workable taken.2 := by
  fun_induction operand tokens with
  | case1 => exact Outcome.safe_fail .missingOperandAtEnd
  | case2 x rest => exact Outcome.safe_pure ⟨h.finite x List.mem_cons_self, h.of_cons⟩
  | case3 rest ih =>
      refine Outcome.Safe.bind (ih h.of_cons h.leading?_eq_none) ?_
      rintro ⟨x, after⟩ - ⟨hx, hafter⟩
      exact Outcome.Safe.bind (takeRoot_safe hx) fun root _ hroot =>
        Outcome.safe_pure ⟨hroot, hafter⟩
  | case4 token rest hnumber hroot =>
      obtain ⟨htoken, -⟩ := bracketFree_cons.mp h.bracketFree
      rcases token with x | (op | _) | _ | _
      · exact (hnumber x rfl).elim
      · contradiction
      · exact (hroot rfl).elim
      · contradiction
      · contradiction

namespace Cursor

theorem step_safe {precedence : Nat} {cursor : Cursor} (h : Workable cursor.tokens) :
    (cursor.step precedence).Safe fun next => Workable next.tokens := by
  have hsteps := cursor.steps precedence
  generalize cursor.step precedence = outcome at hsteps
  obtain ⟨hdone, hrest⟩ := Workable.of_append h
  cases hsteps with
  | finished done => exact Outcome.safe_pure h
  | passed htoken =>
      apply Outcome.safe_pure
      rwa [tokens_cons]
  | rooted hprecedence =>
      refine Outcome.Safe.bind (operand_safe hrest rfl) ?_
      rintro ⟨x, after⟩ - ⟨hx, hafter⟩
      apply Outcome.safe_pure
      rw [tokens_cons]
      exact workable_append_number hdone hx hafter
  | combined hprecedence =>
      rw [List.reverse_cons] at hdone
      refine Outcome.Safe.bind (operand_safe hrest.of_cons hrest.leading?_eq_none) ?_
      rintro ⟨right, after⟩ - ⟨hright, hafter⟩
      refine Outcome.Safe.bind (combine_safe hdone.isFinite hright) ?_
      rintro result - hresult
      apply Outcome.safe_pure
      rw [tokens_cons]
      exact workable_append_number hdone.of_append.1 hresult hafter
  | missing done behind op => exact Outcome.safe_fail (.missingOperandBefore op)

end Cursor

theorem passFrom_safe {precedence : Nat} {cursor : Cursor}
    (h : Workable cursor.tokens) :
    (passFrom precedence cursor).Safe Workable := by
  induction cursor using passFrom.induct precedence with
  | case1 cursor hrest =>
      rw [passFrom_of_rest_eq_nil hrest]
      exact Outcome.safe_pure h
  | case2 cursor hrest ih =>
      rw [passFrom_of_rest_ne_nil hrest]
      exact Outcome.Safe.bind (Cursor.step_safe h) ih

theorem single_safe {tokens : List Token} (h : Workable tokens) :
    (Outcome.ofExcept (single tokens)).Safe fun x => x.isFinite := by
  unfold single
  split
  · exact Outcome.safe_fail .emptyExpression
  · rename_i x
    have hx := h.finite x List.mem_cons_self
    rw [checkFinite, if_pos hx]
    exact Outcome.safe_pure hx
  · exact Outcome.safe_fail (.missingOperator tokens)

theorem reduce_safe {segment : List Token} (h : Workable segment) :
    (reduce segment).Safe fun x => x.isFinite := by
  refine Outcome.Safe.bind (passFrom_safe h) fun powers _ hpowers => ?_
  refine Outcome.Safe.bind (passFrom_safe hpowers) fun products _ hproducts => ?_
  refine Outcome.Safe.bind (passFrom_safe hproducts) fun sums _ hsums => ?_
  exact single_safe hsums

/-- What a segment is turned into while it is reduced, with the precedence of the
pass and the place that it has come to. -/
inductive Reduces (segment : List Token) : Nat → Cursor → Prop
  | start : Reduces segment Operator.highestPrecedence (.start segment)
  /-- A step has been taken. -/
  | step {precedence : Nat} {cursor next : Cursor} :
      Reduces segment precedence cursor → (cursor.step precedence).result = .ok next →
        Reduces segment precedence next
  /-- The right operand of an operation has been taken, but not the
  operation carried out. -/
  | operand {precedence : Nat} {done behind rest : List Token} {op : Operation}
      {right : Float} :
      Reduces segment precedence ⟨done, .operator (.binary op) :: behind⟩ →
        op.precedence = precedence → (operand behind).result = .ok (right, rest) →
        Reduces segment precedence ⟨done, .operator (.binary op) :: .number right :: rest⟩
  /-- A pass is over, and the next one begins. -/
  | next {precedence : Nat} {cursor : Cursor} :
      Reduces segment (precedence + 1) cursor → 0 < precedence → cursor.rest = [] →
        Reduces segment precedence (.start cursor.tokens)

theorem exists_reduces_of_pass {segment tokens after : List Token} {precedence : Nat}
    (hstart : Reduces segment precedence (.start tokens))
    (h : (pass precedence tokens).result = .ok after) :
    ∃ cursor, Reduces segment precedence cursor ∧ cursor.rest = [] ∧
    cursor.tokens = after := by
  obtain ⟨done, hdone, rfl⟩ :=
    passFrom_keeps (fun cursor next hcursor _ hnext => Reduces.step hcursor hnext) hstart h
  exact ⟨⟨done, []⟩, hdone, rfl, List.append_nil _⟩

theorem workable_of_reduces {segment : List Token} {precedence : Nat} {cursor : Cursor}
    (h : Reduces segment precedence cursor) (hsegment : Workable segment) :
    Workable cursor.tokens := by
  induction h with
  | start => exact hsegment
  | step _ hnext ih => exact (Cursor.step_safe ih).value _ hnext
  | @operand _ done behind rest op right _ _ hright ih =>
      obtain ⟨-, hbehind⟩ := Workable.of_append ih
      obtain ⟨hfinite, hrest⟩ :=
        (operand_safe hbehind.of_cons hbehind.leading?_eq_none).value _ hright
      have hfront : Workable (done.reverse ++ [.operator (.binary op)] ++ behind) := by
        rw [List.append_assoc]
        exact ih
      have hworkable := workable_append_number hfront.of_append.1 hfinite hrest
      rw [List.append_assoc] at hworkable
      exact hworkable
  | next _ _ _ ih => exact ih

end Calculator
