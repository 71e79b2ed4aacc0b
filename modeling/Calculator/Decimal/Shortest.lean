import Calculator.Decimal.Steps

namespace Calculator

open Calculator.Binary64

namespace Decimal

/-- Whether so many times `powerOfTen place` steps of 10⁻¹⁰⁷⁴ read back as the
magnitude `c`. -/
def readsAs (c place count : Nat) : Bool :=
  codeOfSteps (count * powerOfTen place) == c

/-- How many times `powerOfTen place` steps come next to the magnitude `c`
and read back as `c`. -/
def neighbour? (c place : Nat) : Option Nat :=
  let n := steps c
  let below := n / powerOfTen place
  if readsAs c place below then
    if readsAs c place (below + 1) ∧
        (below + 1) * powerOfTen place - n ≤ n - below * powerOfTen place then some (below + 1)
    else some below
  else if readsAs c place (below + 1) then some (below + 1)
  else none

def ofSteps (place count : Nat) : Decimal :=
  trimmed (count * powerOfTen (place - unitExponent)) (unitExponent - place)

/-- The decimal with the fewest digits that reads back as the finite magnitude with
code `c`. Seventeen digits always suffice; the exact value stands behind them. -/
def shortest (c : Nat) : Decimal :=
  let digits := digitCount (steps c)
  let found := (List.range 17).findSome? fun k =>
    let place := digits - (k + 1)
    (neighbour? c place).map (ofSteps place)
  found.getD (ofSteps 0 (steps c))

theorem readsAs_of_neighbour? {c place count : Nat}
    (h : neighbour? c place = some count) :
    readsAs c place count := by
  simp only [neighbour?] at h
  split at h
  · split at h
    · rename_i habove
      rw [← Option.some.inj h]
      exact habove.1
    · rename_i hbelow _
      rw [← Option.some.inj h]
      exact hbelow
  · split at h
    · rename_i habove
      rw [← Option.some.inj h]
      exact habove
    · simp at h

theorem code_ofSteps (place count : Nat) :
    (ofSteps place count).code = codeOfSteps (count * powerOfTen place) := by
  refine code_eq_codeOfSteps ?_
  have htrimmed := coefficient_trimmed (count * powerOfTen (place - unitExponent))
    (unitExponent - place)
  rw [← ofSteps] at htrimmed
  by_cases hplace : place ≤ unitExponent
  · rw [Nat.sub_eq_zero_of_le hplace, powerOfTen_zero, Nat.mul_one] at htrimmed
    rw [← Nat.sub_add_cancel hplace, powerOfTen_add, ← Nat.mul_assoc, htrimmed,
      Nat.mul_right_comm]
  · rw [Nat.sub_eq_zero_of_le (Nat.le_of_not_le hplace), powerOfTen_zero,
      Nat.mul_one] at htrimmed
    rw [htrimmed, Nat.mul_right_comm, Nat.mul_assoc count, ← powerOfTen_add,
      Nat.sub_add_cancel (Nat.le_of_not_le hplace)]

theorem code_shortest {c : Nat} (h : c ≤ infinityCode) : (shortest c).code = c := by
  simp only [shortest]
  generalize digitCount (steps c) = digits
  cases hfound : (List.range 17).findSome? fun k =>
      (neighbour? c (digits - (k + 1))).map (ofSteps (digits - (k + 1))) with
  | none =>
      rw [Option.getD_none, code_ofSteps, powerOfTen_zero, Nat.mul_one]
      exact codeOfSteps_steps h
  | some d =>
      obtain ⟨k, -, hk⟩ := List.exists_of_findSome?_eq_some hfound
      obtain ⟨count, hcount, rfl⟩ := Option.map_eq_some_iff.1 hk
      rw [Option.getD_some, code_ofSteps]
      exact eq_of_beq (readsAs_of_neighbour? hcount)

end Decimal

/-- A double in positional notation, with the fewest digits that read back
as the same double. -/
def numberChars (x : Float) : List Char :=
  if infinityCode < code x then ['N', 'a', 'N']
  else
    let magnitude :=
      if code x = infinityCode then ['i', 'n', 'f'] else (Decimal.shortest (code x)).chars
    if isNegative x then '-' :: magnitude else magnitude

def numberText (x : Float) : String :=
  String.ofList (numberChars x)

end Calculator
