import Calculator.Proofs.DoubleBits
import Calculator.Expression
import Calculator.Proofs.TreeSemantics

namespace Calculator

open Calculator.Binary64

namespace Shape

/-- A sequence that nothing speaks against, with one operand more than there are
operations. -/
structure Faultless (tokens : List Token) : Prop where
  nonempty : tokens ≠ []
  leading : leading? tokens = none
  trailing : trailing? tokens = none
  consecutive : consecutive? tokens = none
  operands : tokens.countP Token.isNumber = tokens.countP Token.isBinary + 1

theorem leading?_append {front : List Token} (h : front ≠ []) (behind : List Token) :
    leading? (front ++ behind) = leading? front := by
  obtain ⟨token, rest, rfl⟩ := List.exists_cons_of_ne_nil h
  rcases token with x | (op | _) | _ | _ <;> rfl

theorem trailing?_append (front : List Token) {behind : List Token} (h : behind ≠ []) :
    trailing? (front ++ behind) = trailing? behind := by
  rw [trailing?, List.getLast?_append_of_ne_nil front h]
  rfl

theorem consecutive?_cons_eq_none {token : Token} {rest : List Token} :
    consecutive? (token :: rest) = none ↔
      (token.operator? = none ∨ leading? rest = none) ∧ consecutive? rest = none := by
  rcases token with x | op | _ | _
  · simp [consecutive?, Token.operator?]
  · rcases rest with _ | ⟨x | (op | _) | _ | _, rest⟩ <;>
      simp [consecutive?, Token.operator?, leading?]
  · simp [consecutive?, Token.operator?]
  · simp [consecutive?, Token.operator?]

theorem consecutive?_append {front behind : List Token}
    (hfront : consecutive? front = none) (hbehind : consecutive? behind = none)
    (hboundary : trailing? front = none ∨ leading? behind = none) :
    consecutive? (front ++ behind) = none := by
  induction front with
  | nil => exact hbehind
  | cons token rest ih =>
      rw [consecutive?_cons_eq_none] at hfront
      rw [List.cons_append, consecutive?_cons_eq_none]
      rcases rest with _ | ⟨next, rest⟩
      · exact ⟨hboundary, hbehind⟩
      · have htrailing : trailing? (token :: next :: rest) = trailing? (next :: rest) :=
          trailing?_append [token] (List.cons_ne_nil next rest)
        rw [htrailing] at hboundary
        rw [leading?_append (List.cons_ne_nil next rest)]
        exact ⟨hfront.1, ih hfront.2 hboundary⟩

theorem of_consecutive?_append {front behind : List Token}
    (h : consecutive? (front ++ behind) = none) :
    consecutive? front = none ∧ consecutive? behind = none := by
  induction front with
  | nil => exact ⟨rfl, h⟩
  | cons token rest ih =>
      rw [List.cons_append, consecutive?_cons_eq_none] at h
      obtain ⟨hboundary, hrest⟩ := h
      obtain ⟨hfront, hbehind⟩ := ih hrest
      refine ⟨consecutive?_cons_eq_none.mpr ⟨?_, hfront⟩, hbehind⟩
      rcases rest with _ | ⟨next, rest⟩
      · exact .inr rfl
      · rwa [leading?_append (List.cons_ne_nil next rest)] at hboundary

theorem accepts_iff {tokens : List Token} :
    accepts tokens ↔ tokens ≠ [] ∧ leading? tokens = none ∧ trailing? tokens = none ∧
      consecutive? tokens = none ∧ surplus? tokens = none := by
  unfold accepts rejection?
  split
  · rename_i hempty
    exact iff_of_false Bool.false_ne_true fun h => h.1 (List.isEmpty_iff.mp hempty)
  · rename_i hnonempty
    rw [List.isEmpty_iff] at hnonempty
    simp only [Option.orElse_eq_orElse, Option.orElse_eq_or, Option.isNone_iff_eq_none,
      Option.or_eq_none_iff, Option.map_eq_none_iff]
    exact (and_iff_right hnonempty).symm

theorem consecutive?_of_accepts {tokens : List Token} (h : accepts tokens) :
    consecutive? tokens = none :=
  (accepts_iff.mp h).2.2.2.1

theorem accepts_of_faultless {tokens : List Token} (h : Faultless tokens) :
    accepts tokens := by
  have hsurplus : surplus? tokens = none := by
    simp only [surplus?, h.operands, Nat.lt_succ_self, if_true]
  exact accepts_iff.mpr ⟨h.nonempty, h.leading, h.trailing, h.consecutive, hsurplus⟩

theorem faultless_number (x : Float) : Faultless [.number x] :=
  ⟨List.cons_ne_nil _ _, rfl, rfl, rfl, rfl⟩

theorem faultless_bracket {tokens : List Token} (h : Faultless tokens) :
    Faultless (.opening :: tokens ++ [.closing]) := by
  refine ⟨List.cons_ne_nil _ _, rfl, ?_, ?_, ?_⟩
  · exact trailing?_append (.opening :: tokens) (List.cons_ne_nil _ _)
  · rw [List.cons_append, consecutive?_cons_eq_none]
    exact ⟨.inl rfl, consecutive?_append h.consecutive rfl (.inr rfl)⟩
  · simp [List.countP_append, Token.isNumber, Token.isBinary, h.operands]

theorem faultless_root {tokens : List Token} (h : Faultless tokens) :
    Faultless (.operator .root :: tokens) := by
  refine ⟨List.cons_ne_nil _ _, rfl, ?_, ?_, ?_⟩
  · exact (trailing?_append [.operator .root] h.nonempty).trans h.trailing
  · rw [consecutive?_cons_eq_none]
    exact ⟨.inr h.leading, h.consecutive⟩
  · simp [Token.isNumber, Token.isBinary, Operator.isBinary, h.operands]

theorem faultless_binary {left right : List Token} (op : Operation)
    (hleft : Faultless left)
    (hright : Faultless right) :
    Faultless (left ++ .operator (.binary op) :: right) := by
  have hbehind : consecutive? (.operator (.binary op) :: right) = none := by
    rw [consecutive?_cons_eq_none]
    exact ⟨.inr hright.leading, hright.consecutive⟩
  have hlast : trailing? (.operator (.binary op) :: right) = none :=
    (trailing?_append [.operator (.binary op)] hright.nonempty).trans hright.trailing
  refine ⟨List.append_ne_nil_of_left_ne_nil hleft.nonempty _, ?_, ?_, ?_, ?_⟩
  · rw [leading?_append hleft.nonempty]
    exact hleft.leading
  · rw [trailing?_append left (List.cons_ne_nil _ _)]
    exact hlast
  · exact consecutive?_append hleft.consecutive hbehind (.inl hleft.trailing)
  · simp only [List.countP_append, List.countP_cons, Token.isNumber, Token.isBinary,
      Operator.isBinary, hleft.operands, hright.operands, Bool.false_eq_true, if_false,
      if_true]
    omega

theorem faultless_of_derives {level : Nat} {tokens : List Token} {tree : Tree}
    (h : Derives level tokens tree) : Faultless tokens := by
  induction h with
  | number x => exact faultless_number x
  | bracket _ ih => exact faultless_bracket ih
  | root _ ih => exact faultless_root ih
  | binary _ _ ihleft ihright => exact faultless_binary _ ihleft ihright
  | lift _ _ ih => exact ih

end Shape

theorem accepts_isBalanced_of_evaluate {precision : Precision} {tokens : List Token}
    {r : Float} (h : (evaluate precision tokens).result = .ok r) :
    Shape.accepts tokens ∧ Bracket.isBalanced tokens := by
  obtain ⟨x, hx, -⟩ := evaluate_eq_ok.mp h
  obtain ⟨tree, hderives, -⟩ := Bracket.exists_tree_of_resolve hx
  constructor
  · exact Shape.accepts_of_faultless (Shape.faultless_of_derives hderives)
  · exact Bracket.isBalanced_of_derives hderives

/-- The checks in front of evaluation reject no token sequence that has a value, so
a text has the value of its tokens. -/
theorem checks_admit_values :
    (∀ precision tokens r, (evaluate precision tokens).result = .ok r →
      Shape.accepts tokens ∧ Bracket.isBalanced tokens) ∧
    ∀ text r, (calculate text).result = .ok r ↔
      ∃ tokens, (tokenize text).result = .ok tokens ∧
        (evaluate .standard tokens).result = .ok r := by
  constructor
  · intro precision tokens r h
    exact accepts_isBalanced_of_evaluate h
  · intro text r
    constructor
    · intro h
      obtain ⟨expression, hparse, hvalue⟩ := Outcome.exists_of_result_bind_eq_ok h
      exact ⟨expression.tokens, Expression.parse_eq_ok.mp hparse, hvalue⟩
    · rintro ⟨tokens, htokens, hvalue⟩
      obtain ⟨haccepted, hbalanced⟩ := accepts_isBalanced_of_evaluate hvalue
      let expression : Expression := ⟨tokens, haccepted, hbalanced⟩
      have hparse : (Expression.parse text).result = .ok expression :=
        Expression.parse_eq_ok.mpr htokens
      rw [calculate, Outcome.result_bind_of_ok _ hparse]
      exact hvalue

theorem checks_admit_bracket :
    ∃ r, (evaluate .standard [.opening, .number (ofCode false 0), .closing]).result = .ok r ∧
      Shape.accepts [.opening, .number (ofCode false 0), .closing] ∧
      Bracket.isBalanced [.opening, .number (ofCode false 0), .closing] := by
  have hfinite : (ofCode false 0).isFinite := isFinite_ofCode false (by decide)
  have hinner : Derives 1 [.number (ofCode false 0)] (.number (ofCode false 0)) :=
    derives_one (.number _)
  have hderives : Derives 1 [.opening, .number (ofCode false 0), .closing]
      (.bracket (.number (ofCode false 0))) :=
    derives_one (.bracket hinner)
  have hvalue : (Tree.bracket (.number (ofCode false 0))).value =
      .ok (ofCode false 0) :=
    Tree.value_bracket_eq_ok.mpr ⟨rfl, hfinite⟩
  have hevaluate :
      (evaluate .standard [.opening, .number (ofCode false 0), .closing]).result =
      .ok (Precision.standard.round (ofCode false 0)) :=
    evaluate_eq_ok.mpr ⟨_, result_resolve_of_value hderives hvalue hfinite, rfl⟩
  exact ⟨_, hevaluate, checks_admit_values.1 _ _ _ hevaluate⟩

end Calculator
