import Calculator.Proofs.Unabridged

namespace Calculator.Shorthand

section Steps

/-- Writes the products that are implied in a token sequence behind `previous`. -/
def writeProductsFrom (previous : Option Token) : List Token → List Token
  | [] => []
  | token :: rest =>
      if productImplied previous token then
        .operator (.binary .mul) :: token :: writeProductsFrom (some token) rest
      else token :: writeProductsFrom (some token) rest

theorem writeProducts_cons (token : Token) (rest : List Token) :
    writeProducts (token :: rest) = token :: writeProductsFrom (some token) rest := by
  induction rest generalizing token with
  | nil => rfl
  | cons next rest ih =>
      rw [writeProducts, writeProductsFrom, ih]
      split
      · rfl
      · rfl

theorem writeProducts_eq (tokens : List Token) :
    writeProducts tokens = writeProductsFrom none tokens := by
  cases tokens with
  | nil => rfl
  | cons token rest => exact writeProducts_cons token rest

theorem productImplied_number_left (x y : Float) (token : Token) :
    productImplied (some (.number x)) token = productImplied (some (.number y)) token := by
  rcases token with z | (op | _) | _ | _ <;> rfl

/-- The walk looks back at a token that was put out, and the first step at one that was
read. These differ only by the sign of a number, which neither of them asks for. -/
theorem expandFrom_eq {written found : Option Token}
    (hbegins : operandBegins written = operandBegins found)
    (hproduct : ∀ token, productImplied written token = productImplied found token)
    (tokens : List Token) :
    expandFrom written tokens = writeProductsFrom written (foldSignsFrom found tokens) := by
  fun_induction foldSignsFrom found tokens generalizing written with
  | case1 => rfl
  | case2 found x rest hfound ih =>
      have hwritten : operandBegins written := hbegins.trans hfound
      have hrest := ih (rfl : operandBegins (some (.number (-x))) = _)
        fun token => productImplied_number_left (-x) x token
      rw [expandFrom_signed, if_pos hwritten, writeProductsFrom,
        productImplied_number_of_operandBegins (-x) hwritten, if_neg Bool.false_ne_true, hrest]
  | case3 found x rest hfound ih =>
      have hwritten : ¬ operandBegins written := fun h => hfound (hbegins.symm.trans h)
      rw [expandFrom_signed, if_neg hwritten, writeProductsFrom,
        productImplied_binary_right, if_neg Bool.false_ne_true, ih rfl fun _ => rfl]
  | case4 found token rest hshape ih =>
      rw [expandFrom_cons hshape, writeProductsFrom, ih rfl fun _ => rfl]

end Steps

section Places

/-- The token in front of a place. -/
def before? (tokens : List Token) : Nat → Option Token
  | 0 => none
  | place + 1 => tokens[place]?

/-- The number whose sign stands at a place: a `-` is the sign of the number right
behind it if it is the first token or stands behind an operator or an opening
bracket. -/
def signed? (tokens : List Token) (place : Nat) : Option Float :=
  match before? tokens place, tokens[place]?, tokens[place + 1]? with
  | none, some (.operator (.binary .sub)), some (.number x)
  | some (.operator _), some (.operator (.binary .sub)), some (.number x)
  | some .opening, some (.operator (.binary .sub)), some (.number x) => some x
  | _, _, _ => none

/-- What stands for the token at a place when signs are part of their numbers: a
sign gives way to the number with that sign, the number behind a sign is gone,
and all else stays. -/
def foldedAt (tokens : List Token) (place : Nat) : List Token :=
  match signed? tokens place with
  | some x => [.number (-x)]
  | none =>
      if 0 < place ∧ (signed? tokens (place - 1)).isSome then [] else tokens[place]?.toList

/-- Whether a product is left out in front of a place: behind a closing bracket in
front of an opening one, a root or a number, or behind a number in front of an
opening bracket or a root. -/
def leavesProduct (tokens : List Token) (place : Nat) : Bool :=
  match before? tokens place, tokens[place]? with
  | some .closing, some .opening | some .closing, some (.operator .root)
  | some .closing, some (.number _) => true
  | some (.number _), some .opening | some (.number _), some (.operator .root) => true
  | _, _ => false

/-- The token at a place behind the product that is left out in front of it. -/
def multipliedAt (tokens : List Token) (place : Nat) : List Token :=
  if leavesProduct tokens place then .operator (.binary .mul) :: tokens[place]?.toList
  else tokens[place]?.toList

theorem before?_append (before rest : List Token) :
    before? (before ++ rest) before.length = before.getLast? := by
  induction before using List.reverseRecOn with
  | nil => rfl
  | append_singleton before token ih => simp [before?]

theorem getElem?_append_cons (before : List Token) (token : Token) (rest : List Token) :
    (before ++ token :: rest)[before.length]? = some token := by
  rw [List.getElem?_append_right (Nat.le_refl _), Nat.sub_self, List.getElem?_cons_zero]

theorem getElem?_append_succ (before : List Token) (token : Token) (rest : List Token) :
    (before ++ token :: rest)[before.length + 1]? = rest.head? := by
  rw [List.getElem?_append_right (Nat.le_add_right _ 1), Nat.add_sub_cancel_left,
    List.getElem?_cons_succ, List.head?_eq_getElem?]

theorem leavesProduct_append (before : List Token) (token : Token) (rest : List Token) :
    leavesProduct (before ++ token :: rest) before.length =
      productImplied before.getLast? token := by
  rw [leavesProduct, before?_append, getElem?_append_cons]
  rcases before.getLast? with _ | (x | op | _ | _) <;>
    rcases token with y | (op | _) | _ | _ <;> rfl

theorem signed?_sign (before : List Token) (x : Float) (after : List Token) :
    signed? (before ++ .operator (.binary .sub) :: .number x :: after) before.length =
      if operandBegins before.getLast? then some x else none := by
  rw [signed?, before?_append, getElem?_append_cons, getElem?_append_succ,
    List.head?_cons]
  rcases before.getLast? with _ | (y | op | _ | _) <;> rfl

theorem signed?_other (before : List Token) {token : Token} {rest : List Token}
    (h : ∀ x after, token = .operator (.binary .sub) → rest ≠ .number x :: after) :
    signed? (before ++ token :: rest) before.length = none := by
  have hnumber (x : Float) (htoken : some token = some (.operator (.binary .sub))) :
      rest.head? ≠ some (.number x) := by
    intro hhead
    obtain ⟨after, hrest⟩ := List.head?_eq_some_iff.mp hhead
    exact h x after (Option.some.inj htoken) hrest
  rw [signed?, getElem?_append_cons, getElem?_append_succ]
  split
  · rename_i htoken hhead
    exact absurd hhead (hnumber _ htoken)
  · rename_i htoken hhead
    exact absurd hhead (hnumber _ htoken)
  · rename_i htoken hhead
    exact absurd hhead (hnumber _ htoken)
  · rfl

theorem foldedAt_append (before : List Token) {token : Token} {rest : List Token}
    (hsign : signed? (before ++ token :: rest) before.length = none)
    (hbehind : 0 < before.length →
      signed? (before ++ token :: rest) (before.length - 1) = none) :
    foldedAt (before ++ token :: rest) before.length = [token] := by
  have hplace : ¬ (0 < before.length ∧
      (signed? (before ++ token :: rest) (before.length - 1)).isSome) := by
    rintro ⟨hpos, hsome⟩
    rw [hbehind hpos] at hsome
    contradiction
  rw [foldedAt, hsign, getElem?_append_cons]
  exact if_neg hplace

theorem flatMap_places (stands : List Token → Nat → List Token) (before : List Token)
    (token : Token) (rest : List Token) :
    (List.range' before.length (token :: rest).length).flatMap
      (stands (before ++ token :: rest)) =
      stands (before ++ token :: rest) before.length ++
        (List.range' (before ++ [token]).length rest.length).flatMap
          (stands (before ++ [token] ++ rest)) := by
  rw [List.length_cons, List.range'_succ, List.flatMap_cons, List.append_assoc,
    List.length_append]
  rfl

theorem signed?_concat {before rest : List Token} {token : Token}
    (h : signed? (before ++ token :: rest) before.length = none) :
    0 < (before ++ [token]).length →
      signed? (before ++ [token] ++ rest) ((before ++ [token]).length - 1) = none := by
  rintro -
  rw [List.append_assoc, List.length_append]
  exact h

theorem foldSignsFrom_eq (before rest : List Token)
    (h : 0 < before.length → signed? (before ++ rest) (before.length - 1) = none) :
    foldSignsFrom before.getLast? rest =
      (List.range' before.length rest.length).flatMap (foldedAt (before ++ rest)) := by
  generalize hprevious : before.getLast? = previous
  fun_induction foldSignsFrom previous rest generalizing before with
  | case1 => rfl
  | case2 previous x rest hbegins ih =>
      subst hprevious
      have hsign : signed? (before ++ .operator (.binary .sub) :: .number x :: rest)
          before.length = some x := by
        rw [signed?_sign, if_pos hbegins]
      have hnumber :
          signed? (before ++ [Token.operator (.binary .sub)] ++ .number x :: rest)
          (before ++ [Token.operator (.binary .sub)]).length = none :=
        signed?_other _ fun _ _ h => Token.noConfusion h
      have hgone : foldedAt (before ++ [Token.operator (.binary .sub)] ++ .number x :: rest)
          (before ++ [Token.operator (.binary .sub)]).length = [] := by
        rw [foldedAt, hnumber]
        apply if_pos
        rw [List.append_assoc, List.length_append]
        exact ⟨Nat.succ_pos _, Option.isSome_of_eq_some hsign⟩
      rw [flatMap_places, flatMap_places, hgone,
        ih _ (signed?_concat hnumber) (by simp), foldedAt, hsign]
      rfl
  | case3 previous x rest hbegins ih =>
      subst hprevious
      have hsign : signed? (before ++ .operator (.binary .sub) :: .number x :: rest)
          before.length = none := by
        rw [signed?_sign, if_neg hbegins]
      rw [flatMap_places, foldedAt_append before hsign h,
        ih _ (signed?_concat hsign) (by simp)]
      rfl
  | case4 previous token rest hshape ih =>
      subst hprevious
      have hsign := signed?_other before hshape
      rw [flatMap_places, foldedAt_append before hsign h,
        ih _ (signed?_concat hsign) (by simp)]
      rfl

theorem writeProductsFrom_eq (before rest : List Token) :
    writeProductsFrom before.getLast? rest =
      (List.range' before.length rest.length).flatMap (multipliedAt (before ++ rest)) := by
  induction rest generalizing before with
  | nil => rfl
  | cons token rest ih =>
      have hrest := ih (before ++ [token])
      rw [List.getLast?_concat] at hrest
      rw [flatMap_places, ← hrest, writeProductsFrom, multipliedAt,
        leavesProduct_append, getElem?_append_cons]
      split
      · rfl
      · rfl

end Places

/-- Making shorthand explicit is making signs part of their numbers and then writing
the products that are left out. Both steps go once through the places of a sequence.
At each place the first one leaves the token, or the number whose sign it is, or
nothing of a number whose sign stands in front of it; the second one leaves the
token, behind a product if one is left out there. -/
theorem expand_eq_writeProducts_foldSigns (tokens : List Token) :
    expand tokens = writeProducts (foldSigns tokens) ∧
      foldSigns tokens = (List.range tokens.length).flatMap (foldedAt tokens) ∧
      ∀ folded, writeProducts folded =
        (List.range folded.length).flatMap (multipliedAt folded) := by
  refine ⟨?_, ?_, ?_⟩
  · rw [writeProducts_eq]
    exact expandFrom_eq rfl (fun _ => rfl) tokens
  · rw [List.range_eq_range']
    exact foldSignsFrom_eq [] tokens nofun
  · intro folded
    rw [writeProducts_eq, List.range_eq_range']
    exact writeProductsFrom_eq [] folded

/-- In `--x√y` the second `-` is the sign of `x`, and a product is left out
in front of the root. -/
example (x y : Float) :
    expand [.operator (.binary .sub), .operator (.binary .sub), .number x, .operator .root,
        .number y] =
      [.operator (.binary .sub), .number (-x), .operator (.binary .mul), .operator .root,
        .number y] :=
  rfl

end Calculator.Shorthand
