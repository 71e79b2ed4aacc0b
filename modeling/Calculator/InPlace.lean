import Calculator.Outcome

/-!
Computations on a row of tokens that is changed in place.

Tokens are read, put and taken out by their places, which are counted from 0. A
computation that touches a place outside its row has a defect; no input should bring
one about. `Follows` relates a computation in place to an outcome that is computed
without places, and `Follows.bind` says that it is enough to do so step by step.
-/

namespace Calculator

/-- What no input should bring about. -/
inductive Defect where
  /-- A place is touched that the row does not have. -/
  | outsideRow
  /-- A root is carried out between two operands, although a square root is not a
  binary operator. -/
  | rootAsOperation
deriving DecidableEq

/-- A computation on a row of tokens. It has a defect, or it ends with the row as it
leaves it and an outcome. -/
def InPlace (α : Type) : Type :=
  List Token → Except Defect (List Token × Outcome α)

namespace InPlace

variable {α β γ δ : Type}

/-- A computation that leaves the row as it is. -/
def ofOutcome (outcome : Outcome α) : InPlace α :=
  fun row => .ok (row, outcome)

def fail (fault : Fault) : InPlace α :=
  ofOutcome (.fail fault)

def defect (which : Defect) : InPlace α :=
  fun _ => .error which

protected def bind (first : InPlace α) (next : α → InPlace β) : InPlace β := fun row =>
  match first row with
  | .error which => .error which
  | .ok (left, outcome) =>
      match outcome.result with
      | .error fault => .ok (left, ⟨outcome.log, .error fault⟩)
      | .ok x => (next x left).map fun ending => (ending.1, outcome >>= fun _ => ending.2)

instance : Monad InPlace where
  pure x := ofOutcome (return x)
  bind := InPlace.bind

def row : InPlace (List Token) :=
  fun row => .ok (row, return row)

def tokenAt (place : Nat) : InPlace Token := fun row =>
  match row[place]? with
  | some token => .ok (row, return token)
  | none => .error .outsideRow

def put (place : Nat) (token : Token) : InPlace Unit := fun row =>
  if place < row.length then .ok (row.set place token, return ()) else .error .outsideRow

/-- Takes out the tokens from the place `first` to the place `last`. -/
def takeOut (first last : Nat) : InPlace Unit := fun row =>
  if first ≤ last + 1 ∧ last < row.length then
    .ok (row.take first ++ row.drop (last + 1), return ())
  else .error .outsideRow

def placeBefore : Nat → InPlace Nat
  | 0 => defect .outsideRow
  | place + 1 => return place

theorem row_apply (tokens : List Token) : row tokens = .ok (tokens, return tokens) :=
  rfl

section Rows

variable {first : InPlace α} {row left : List Token} {outcome : Outcome α}

theorem pure_apply (x : α) (row : List Token) :
    (pure x : InPlace α) row = .ok (row, return x) :=
  rfl

theorem bind_of_defect {which : Defect} (next : α → InPlace β)
    (h : first row = .error which) :
    (first >>= next) row = .error which := by
  change InPlace.bind first next row = _
  rw [InPlace.bind, h]

theorem bind_of_ok {x : α} (next : α → InPlace β) (h : first row = .ok (left, outcome))
    (hresult : outcome.result = .ok x) :
    (first >>= next) row =
      (next x left).map fun ending => (ending.1, outcome >>= fun _ => ending.2) := by
  change InPlace.bind first next row = _
  rw [InPlace.bind, h]
  simp only [hresult]

theorem bind_of_error {fault : Fault} (next : α → InPlace β)
    (h : first row = .ok (left, outcome)) (hresult : outcome.result = .error fault) :
    (first >>= next) row = .ok (left, ⟨outcome.log, .error fault⟩) := by
  change InPlace.bind first next row = _
  rw [InPlace.bind, h]
  simp only [hresult]

theorem bind_of_pure {x : α} (next : α → InPlace β)
    (h : first row = .ok (left, return x)) :
    (first >>= next) row = next x left := by
  rw [bind_of_ok next h rfl]
  rcases next x left with which | ⟨after, log, result⟩ <;> rfl

variable (front behind : List Token) (token : Token)

theorem tokenAt_length :
    tokenAt front.length (front ++ token :: behind) =
      .ok (front ++ token :: behind, return token) := by
  simp [tokenAt]

theorem put_length (other : Token) :
    put front.length other (front ++ token :: behind) =
      .ok (front ++ other :: behind, return ()) := by
  simp [put]

theorem takeOut_length {middle : List Token} {last : Nat}
    (hlast : last + 1 = front.length + middle.length) (hne : middle ≠ []) :
    takeOut front.length last (front ++ (middle ++ behind)) =
      .ok (front ++ behind, return ()) := by
  have hpos := List.length_pos_iff.mpr hne
  have hbounds : front.length ≤ last + 1 ∧
      last < (front ++ (middle ++ behind)).length := by
    simp only [List.length_append]
    omega
  have hdrop : (front ++ (middle ++ behind)).drop (last + 1) = behind := by
    rw [hlast, ← List.append_assoc, ← List.length_append, List.drop_left]
  rw [takeOut, if_pos hbounds, List.take_left, hdrop]

end Rows

/-- A computation in place does to a row what an outcome tells. It has no defect,
its log and its fault are those of the outcome, and a value of the outcome tells the
value and the row that is left. -/
def Follows (program : InPlace α) (row : List Token) (outcome : Outcome β)
    (value : β → α) (left : β → List Token) : Prop :=
  ∃ after, program row = .ok (after, value <$> outcome) ∧
    ∀ x, outcome.result = .ok x → after = left x

section Following

variable {row : List Token}

theorem follows_ofOutcome (outcome : Outcome α) :
    (ofOutcome outcome).Follows row outcome id fun _ => row :=
  ⟨row, by rw [id_map]; rfl, fun _ _ => rfl⟩

theorem follows_pure {program : InPlace α} {x : β} {value : β → α}
    {left : β → List Token} (h : program row = .ok (left x, return value x)) :
    program.Follows row (return x) value left := by
  refine ⟨left x, h, ?_⟩
  rintro y ⟨⟩
  rfl

theorem follows_fail {program : InPlace α} {fault : Fault} {after : List Token}
    (h : program row = .ok (after, .fail fault)) (value : β → α)
    (left : β → List Token) :
    program.Follows row (.fail fault) value left :=
  ⟨after, h, nofun⟩

theorem Follows.of_eq {program other : InPlace α} {after : List Token}
    {outcome : Outcome β}
    {value : β → α} {left : β → List Token} (h : other.Follows after outcome value left)
    (heq : program row = other after) : program.Follows row outcome value left := by
  rw [Follows, heq]
  exact h

theorem follows_of_pure {first : InPlace γ} {next : γ → InPlace α} {outcome : Outcome β}
    {value : β → α} {left : β → List Token} {after : List Token} {y : γ}
    (h : first row = .ok (after, return y))
    (hnext : (next y).Follows after outcome value left) :
    (first >>= next).Follows row outcome value left :=
  hnext.of_eq (bind_of_pure next h)

theorem Follows.exists_of_ok {program : InPlace α} {outcome : Outcome β} {value : β → α}
    {left : β → List Token} (h : program.Follows row outcome value left)
    {after : List Token}
    {ending : Outcome α} {x : α} (hrun : program row = .ok (after, ending))
    (hx : ending.result = .ok x) :
    ∃ y, outcome.result = .ok y ∧ value y = x ∧ left y = after := by
  obtain ⟨found, hfound, hleft⟩ := h
  obtain ⟨rfl, rfl⟩ := Prod.mk.inj (Except.ok.inj (hfound.symm.trans hrun))
  rw [map_eq_pure_bind] at hx
  obtain ⟨y, hy, hvalue⟩ := Outcome.exists_of_result_bind_eq_ok hx
  exact ⟨y, hy, Except.ok.inj hvalue, (hleft y hy).symm⟩

/-- Two computations in a row do what two outcomes in a row tell, if each of them
does. -/
theorem Follows.bind {first : InPlace α} {next : α → InPlace γ} {outcome : Outcome β}
    {others : β → Outcome δ} {value : β → α} {left : β → List Token} {nextValue : δ → γ}
    {nextLeft : δ → List Token} (hfirst : first.Follows row outcome value left)
    (hnext : ∀ x, outcome.result = .ok x →
      (next (value x)).Follows (left x) (others x) nextValue nextLeft) :
    (first >>= next).Follows row (outcome >>= others) nextValue nextLeft := by
  obtain ⟨after, hrun, hleft⟩ := hfirst
  rcases outcome with ⟨log, fault | x⟩
  · exact ⟨after, bind_of_error next hrun rfl, nofun⟩
  · obtain ⟨last, hlast, hlastLeft⟩ := hnext x rfl
    obtain rfl := hleft x rfl
    refine ⟨last, ?_, hlastLeft⟩
    rw [bind_of_ok next hrun rfl, hlast, map_bind]
    refine congrArg (fun outcome => Except.ok (last, outcome)) ?_
    rw [bind_map_left]
    rfl

end Following

end InPlace

end Calculator
