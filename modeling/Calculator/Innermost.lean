import Calculator.Reduction

namespace Calculator.Bracket

/-- The tokens in front of the last opening bracket and those behind it. -/
def splitLastOpening? : List Token → Option (List Token × List Token)
  | [] => none
  | token :: rest =>
      match splitLastOpening? rest, token with
      | some (before, after), _ => some (token :: before, after)
      | none, .opening => some ([], rest)
      | none, _ => none

/-- The tokens in front of the first closing bracket and those behind it. -/
def splitFirstClosing? : List Token → Option (List Token × List Token)
  | [] => none
  | .closing :: rest => some ([], rest)
  | token :: rest =>
      (splitFirstClosing? rest).map fun (before, after) => (token :: before, after)

theorem eq_of_splitLastOpening? {tokens before after : List Token}
    (h : splitLastOpening? tokens = some (before, after)) :
    tokens = before ++ .opening :: after := by
  induction tokens generalizing before with
  | nil => nomatch h
  | cons token rest ih =>
      unfold splitLastOpening? at h
      split at h
      · rename_i hrest
        obtain ⟨rfl, rfl⟩ := Prod.mk.inj (Option.some.inj h)
        rw [ih hrest]
        rfl
      · obtain ⟨rfl, rfl⟩ := Prod.mk.inj (Option.some.inj h)
        rfl
      · nomatch h

theorem eq_of_splitFirstClosing? {tokens before after : List Token}
    (h : splitFirstClosing? tokens = some (before, after)) :
    tokens = before ++ .closing :: after := by
  fun_induction splitFirstClosing? tokens generalizing before with
  | case1 => nomatch h
  | case2 rest =>
      obtain ⟨rfl, rfl⟩ := Prod.mk.inj (Option.some.inj h)
      rfl
  | case3 token rest _ ih =>
      obtain ⟨⟨inner, behind⟩, hrest, heq⟩ := Option.map_eq_some_iff.1 h
      obtain ⟨rfl, rfl⟩ := Prod.mk.inj heq
      rw [ih hrest]
      rfl

section

variable (value : List Token → Outcome Float)

/-- The value of a token sequence with brackets by substitution, where `value` is
that of a segment without. -/
def substituteWith (tokens : List Token) : Outcome Float :=
  match _ : splitLastOpening? tokens with
  | none =>
      if tokens.any (fun token => token matches .closing) then .fail .unmatchedClosing
      else value tokens
  | some (before, after) =>
      match _ : splitFirstClosing? after with
      | none => .fail .unmatchedOpening
      | some (inner, behind) => do
          let x ← value inner
          .record (.resolved x)
          substituteWith (before ++ .number x :: behind)
termination_by tokens.length
decreasing_by
  rw [eq_of_splitLastOpening? ‹splitLastOpening? tokens = some (before, after)›,
    eq_of_splitFirstClosing? ‹splitFirstClosing? after = some (inner, behind)›]
  simp only [List.length_append, List.length_cons]
  omega

end

end Calculator.Bracket
