import Calculator.Innermost
import Calculator.Evaluation

namespace Calculator.Bracket

def BracketFree (tokens : List Token) : Prop :=
  ∀ token ∈ tokens, token.isBracket = false

theorem bracketFree_nil : BracketFree [] :=
  List.forall_mem_nil _

theorem bracketFree_cons {token : Token} {tokens : List Token} :
    BracketFree (token :: tokens) ↔ token.isBracket = false ∧ BracketFree tokens :=
  List.forall_mem_cons

theorem bracketFree_append {front behind : List Token} :
    BracketFree (front ++ behind) ↔ BracketFree front ∧ BracketFree behind :=
  List.forall_mem_append

theorem BracketFree.opening_not_mem {tokens : List Token} (h : BracketFree tokens) :
    .opening ∉ tokens :=
  fun hmem => Bool.noConfusion (h _ hmem)

theorem BracketFree.closing_not_mem {tokens : List Token} (h : BracketFree tokens) :
    .closing ∉ tokens :=
  fun hmem => Bool.noConfusion (h _ hmem)

theorem splitLastOpening?_eq_none {tokens : List Token} (h : .opening ∉ tokens) :
    splitLastOpening? tokens = none := by
  induction tokens with
  | nil => rfl
  | cons token rest ih =>
      have hrest := ih fun hmem => h (List.mem_cons_of_mem _ hmem)
      cases token with
      | opening => exact absurd List.mem_cons_self h
      | number x => simp [splitLastOpening?, hrest]
      | operator op => simp [splitLastOpening?, hrest]
      | closing => simp [splitLastOpening?, hrest]

theorem splitLastOpening?_append {after : List Token} (h : .opening ∉ after)
    (before : List Token) :
    splitLastOpening? (before ++ .opening :: after) = some (before, after) := by
  induction before with
  | nil => simp [splitLastOpening?, splitLastOpening?_eq_none h]
  | cons token before ih => simp [splitLastOpening?, ih]

theorem splitFirstClosing?_append {before : List Token} (h : .closing ∉ before)
    (after : List Token) :
    splitFirstClosing? (before ++ .closing :: after) = some (before, after) := by
  induction before with
  | nil => rfl
  | cons token before ih =>
      have hbefore : .closing ∉ before := fun hmem => h (List.mem_cons_of_mem _ hmem)
      cases token with
      | closing => exact absurd List.mem_cons_self h
      | number x => simp [splitFirstClosing?, ih hbefore]
      | operator op => simp [splitFirstClosing?, ih hbefore]
      | opening => simp [splitFirstClosing?, ih hbefore]

theorem splitFirstClosing?_eq_none {tokens : List Token} (h : .closing ∉ tokens) :
    splitFirstClosing? tokens = none := by
  rcases hsplit : splitFirstClosing? tokens with _ | ⟨before, after⟩
  · rfl
  · rw [eq_of_splitFirstClosing? hsplit] at h
    exact absurd (List.mem_append_right _ List.mem_cons_self) h

/-- The segments that wait for an opening bracket, as they stand behind the current
one. -/
def waitingTokens (waiting : List (List Token)) : List Token :=
  waiting.flatMap (.closing :: ·)

theorem opening_not_mem_waitingTokens {waiting : List (List Token)}
    (h : ∀ segment ∈ waiting, BracketFree segment) :
    .opening ∉ waitingTokens waiting := by
  intro hmem
  obtain ⟨segment, hsegment, hmem⟩ := List.mem_flatMap.mp hmem
  rcases List.mem_cons.mp hmem with heq | hmem
  · contradiction
  · exact (h segment hsegment).opening_not_mem hmem

section

variable {value : List Token → Outcome Float}

theorem substituteWith_of_opening_not_mem {tokens : List Token}
    (h : .opening ∉ tokens) :
    substituteWith value tokens =
      if tokens.any (fun token => token matches .closing) then .fail .unmatchedClosing
      else value tokens := by
  rw [substituteWith]
  split
  · rfl
  · rename_i hsplit
    rw [splitLastOpening?_eq_none h] at hsplit
    contradiction

theorem substituteWith_of_opening {before after : List Token} (h : .opening ∉ after) :
    substituteWith value (before ++ .opening :: after) =
      match splitFirstClosing? after with
      | none => .fail .unmatchedOpening
      | some (inner, behind) =>
          value inner >>= fun x => .record (.resolved x) >>= fun _ =>
            substituteWith value (before ++ .number x :: behind) := by
  have hlast := splitLastOpening?_append h before
  rw [substituteWith]
  split
  · rename_i hsplit
    rw [hlast] at hsplit
    contradiction
  · rename_i hsplit
    obtain ⟨rfl, rfl⟩ := Prod.mk.inj (Option.some.inj (hlast.symm.trans hsplit))
    split
    · rename_i hfirst
      rw [hfirst]
    · rename_i hfirst
      rw [hfirst]

theorem substituteWith_of_bracketFree {tokens : List Token} (h : BracketFree tokens) :
    substituteWith value tokens = value tokens := by
  rw [substituteWith_of_opening_not_mem h.opening_not_mem]
  apply if_neg
  intro hany
  obtain ⟨token, hmem, htoken⟩ := List.any_eq_true.mp hany
  cases token with
  | closing => exact h.closing_not_mem hmem
  | number x => contradiction
  | operator op => contradiction
  | opening => contradiction

theorem substituteWith_of_closing {tokens : List Token} (hopening : .opening ∉ tokens)
    (hclosing : .closing ∈ tokens) :
    substituteWith value tokens = .fail .unmatchedClosing := by
  rw [substituteWith_of_opening_not_mem hopening]
  exact if_pos (List.any_eq_true.mpr ⟨.closing, hclosing, rfl⟩)

theorem substituteWith_of_unmatched {after : List Token} (h : BracketFree after)
    (before : List Token) :
    substituteWith value (before ++ .opening :: after) = .fail .unmatchedOpening := by
  rw [substituteWith_of_opening h.opening_not_mem,
    splitFirstClosing?_eq_none h.closing_not_mem]

theorem substituteWith_of_pair {inner behind : List Token} (hinner : BracketFree inner)
    (hbehind : .opening ∉ behind) (before : List Token) :
    substituteWith value (before ++ .opening :: (inner ++ .closing :: behind)) =
      value inner >>= fun x => .record (.resolved x) >>= fun _ =>
        substituteWith value (before ++ .number x :: behind) := by
  have hafter : .opening ∉ inner ++ .closing :: behind :=
    List.not_mem_append hinner.opening_not_mem
      (List.not_mem_cons_of_ne_of_not_mem Token.noConfusion hbehind)
  rw [substituteWith_of_opening hafter,
    splitFirstClosing?_append hinner.closing_not_mem]

/-- A state of the walk stands for the sequence in which all that has been read
is put back. Its segments hold no bracket, so that a bracket met next is the
last one that opens. -/
theorem resolveFrom_eq_substituteWith {segment : List Token}
    {waiting : List (List Token)}
    (hsegment : BracketFree segment) (hwaiting : ∀ other ∈ waiting, BracketFree other)
    (before : List Token) :
    resolveFrom value segment waiting before =
      substituteWith value (before.reverse ++ (segment ++ waitingTokens waiting)) := by
  induction before generalizing segment waiting with
  | nil =>
      rw [resolveFrom_nil, List.reverse_nil, List.nil_append]
      cases waiting with
      | nil =>
          have htokens :
              segment ++ waitingTokens [] = segment := by simp [waitingTokens]
          rw [htokens, substituteWith_of_bracketFree hsegment]
          rfl
      | cons outer waiting =>
          have hopening : .opening ∉ segment ++ waitingTokens (outer :: waiting) :=
            List.not_mem_append hsegment.opening_not_mem
              (opening_not_mem_waitingTokens hwaiting)
          rw [substituteWith_of_closing hopening (by simp [waitingTokens])]
          rfl
  | cons token before ih =>
      rw [List.reverse_cons, List.append_assoc, List.singleton_append]
      cases token with
      | closing =>
          have hnext : ∀ other ∈ segment :: waiting, BracketFree other :=
            List.forall_mem_cons.mpr ⟨hsegment, hwaiting⟩
          rw [resolveFrom_closing, ih bracketFree_nil hnext]
          rfl
      | opening =>
          cases waiting with
          | nil =>
              have htokens :
                  segment ++ waitingTokens [] = segment := by simp [waitingTokens]
              rw [resolveFrom_opening_nil, htokens,
                substituteWith_of_unmatched hsegment]
          | cons outer waiting =>
              obtain ⟨houter, hwaiting⟩ := List.forall_mem_cons.mp hwaiting
              have hbehind : .opening ∉ outer ++ waitingTokens waiting :=
                List.not_mem_append houter.opening_not_mem
                  (opening_not_mem_waitingTokens hwaiting)
              have htokens : waitingTokens (outer :: waiting) =
                  .closing :: (outer ++ waitingTokens waiting) := rfl
              rw [resolveFrom_opening_cons, htokens,
                substituteWith_of_pair hsegment hbehind]
              congr 1
              funext x
              congr 1
              funext _
              exact ih (bracketFree_cons.mpr ⟨rfl, houter⟩) hwaiting
      | number x => exact ih (bracketFree_cons.mpr ⟨rfl, hsegment⟩) hwaiting
      | operator op => exact ih (bracketFree_cons.mpr ⟨rfl, hsegment⟩) hwaiting

theorem resolveWith_eq_substituteWith (tokens : List Token) :
    resolveWith value tokens = substituteWith value tokens := by
  have hwalk : resolveFrom value [] [] tokens.reverse = substituteWith value _ :=
    resolveFrom_eq_substituteWith bracketFree_nil (List.forall_mem_nil _) tokens.reverse
  simpa [resolveWith, waitingTokens] using hwalk

end

/-- Both evaluations end in the same value or the same fault, and log the same
entries. -/
theorem evaluate_eq_substitute (precision : Precision) (tokens : List Token) :
    evaluate precision tokens = precision.round <$> substituteWith reduce tokens :=
  congrArg (precision.round <$> ·) (resolveWith_eq_substituteWith tokens)

end Calculator.Bracket
