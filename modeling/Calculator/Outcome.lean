import Calculator.Fault
import Calculator.Log

/-!
Computations that keep a log and may end in a fault.

The log of two computations in a row is the log of the first followed by that of the
second, and a fault ends both; `log_bind_of_ok`, `log_bind_of_error` and
`result_bind` say so. The result never depends on the log.
-/

namespace Calculator

/-- What a computation has logged, and its value or the fault that ended it. -/
structure Outcome (α : Type) where
  log : List Record
  result : Except Fault α

namespace Outcome

variable {α β : Type}

/-- A result that nothing is logged about. -/
def ofExcept (result : Except Fault α) : Outcome α :=
  ⟨[], result⟩

def fail (fault : Fault) : Outcome α :=
  ofExcept (.error fault)

def record (entry : Record) : Outcome Unit :=
  ⟨[entry], .ok ()⟩

protected def bind (first : Outcome α) (next : α → Outcome β) : Outcome β :=
  match first.result with
  | .error fault => ⟨first.log, .error fault⟩
  | .ok value => ⟨first.log ++ (next value).log, (next value).result⟩

instance : Monad Outcome where
  pure value := ofExcept (.ok value)
  bind := Outcome.bind

/-- A computation whose value comes with the proof that it is its result. -/
def attach (outcome : Outcome α) :
    Outcome { value : α // outcome.result = .ok value } :=
  ⟨outcome.log,
    match outcome.result with
    | .error fault => .error fault
    | .ok value => .ok ⟨value, rfl⟩⟩

@[ext] theorem ext {first second : Outcome α} (hlog : first.log = second.log)
    (hresult : first.result = second.result) : first = second := by
  cases first
  cases second
  simp_all

@[simp] theorem log_pure (value : α) : (pure value : Outcome α).log = [] := rfl

@[simp] theorem result_pure (value : α) : (pure value : Outcome α).result = .ok value :=
  rfl

@[simp] theorem log_ofExcept (result : Except Fault α) : (ofExcept result).log = [] :=
  rfl

@[simp] theorem result_ofExcept (result : Except Fault α) :
    (ofExcept result).result = result := rfl

@[simp] theorem log_fail (fault : Fault) : (fail fault : Outcome α).log = [] := rfl

@[simp] theorem result_fail (fault : Fault) : (fail fault : Outcome α).result =
    .error fault := rfl

@[simp] theorem log_record (entry : Record) : (record entry).log = [entry] := rfl

@[simp] theorem result_record (entry : Record) : (record entry).result = .ok () := rfl

theorem result_bind (first : Outcome α) (next : α → Outcome β) :
    (first >>= next).result = first.result >>= fun value => (next value).result := by
  rcases first with ⟨log, fault | value⟩ <;> rfl

theorem exists_of_result_bind_eq_ok {first : Outcome α} {next : α → Outcome β}
    {value : β} (h : (first >>= next).result = .ok value) :
    ∃ middle, first.result = .ok middle ∧ (next middle).result = .ok value := by
  rcases first with ⟨log, fault | middle⟩
  · nomatch h
  · exact ⟨middle, rfl, h⟩

theorem log_bind_of_ok {first : Outcome α} {value : α} (next : α → Outcome β)
    (h : first.result = .ok value) :
    (first >>= next).log = first.log ++ (next value).log := by
  rcases first with ⟨log, fault | value⟩ <;> simp_all [Bind.bind, Outcome.bind]

theorem log_bind_of_error {first : Outcome α} {fault : Fault} (next : α → Outcome β)
    (h : first.result = .error fault) : (first >>= next).log = first.log := by
  rcases first with ⟨log, fault | value⟩ <;> simp_all [Bind.bind, Outcome.bind]

instance : LawfulMonad Outcome :=
  .mk' Outcome
    (fun outcome => by
      rcases outcome with ⟨log, fault | value⟩
      · rfl
      · exact ext (List.append_nil log) rfl)
    (fun _ _ => rfl)
    (fun outcome first second => by
      rcases outcome with ⟨log, fault | value⟩
      · rfl
      · refine ext ?_ ?_
        · rcases h : first value with ⟨firstLog, fault | middle⟩ <;>
            simp [Bind.bind, Outcome.bind, h]
        · rcases h : first value with ⟨firstLog, fault | middle⟩ <;>
            simp [Bind.bind, Outcome.bind, h])

@[simp] theorem attach_bind (outcome : Outcome α) (next : α → Outcome β) :
    (outcome.attach >>= fun value => next value.1) = outcome >>= next := by
  rcases outcome with ⟨log, fault | value⟩ <;> rfl

end Outcome

end Calculator
