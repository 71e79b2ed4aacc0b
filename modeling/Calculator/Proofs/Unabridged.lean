import Calculator.Proofs.Spelling
import Calculator.Token.Shorthand

namespace Calculator.Shorthand

open Calculator.Binary64
open Calculator.Lexer

/-- Whether a token between `previous` and `rest` is read back as it is. -/
structure Kept (previous : Option Token) (token : Token) (rest : List Token) :
    Prop where
  product : ¬ productImplied previous token
  difference : ∀ x y, previous = some (.number x) → token = .number y → ¬ isNegative y
  sign : ∀ x after, token = .operator (.binary .sub) → rest = .number x :: after →
    operandBegins previous → isNegative x

/-- Whether every token of a sequence behind `previous` is read back as it is. -/
def CleanFrom (previous : Option Token) : List Token → Prop
  | [] => True
  | token :: rest => Kept previous token rest ∧ CleanFrom (some token) rest

theorem productImplied_operator_left (op : Operator) (token : Token) :
    productImplied (some (.operator op)) token = false := by
  rcases token with x | _ | _ | _ <;> rfl

theorem productImplied_binary_right (previous : Option Token) (op : Operation) :
    productImplied previous (.operator (.binary op)) = false := by
  rcases previous with _ | (x | _ | _ | _) <;> rfl

theorem productImplied_number_of_operandBegins {previous : Option Token} (x : Float)
    (h : operandBegins previous) : productImplied previous (.number x) = false := by
  rcases previous with _ | (y | _ | _ | _)
  · rfl
  · contradiction
  · rfl
  · rfl
  · contradiction

theorem operandBegins_of_kept {previous : Option Token} {x : Float} {rest : List Token}
    (h : Kept previous (.number x) rest) (hsign : isNegative x) :
    operandBegins previous := by
  rcases previous with _ | (y | _ | _ | _)
  · rfl
  · exact absurd hsign (h.difference y x rfl rfl)
  · rfl
  · rfl
  · exact absurd rfl h.product

theorem expandFrom_signed (previous : Option Token) (x : Float) (rest : List Token) :
    expandFrom previous (.operator (.binary .sub) :: .number x :: rest) =
      if operandBegins previous then .number (-x) :: expandFrom (some (.number (-x))) rest
      else
        .operator (.binary .sub) ::
          expandFrom (some (.operator (.binary .sub))) (.number x :: rest) := by
  rw [expandFrom]

theorem expandFrom_cons {token : Token} {rest : List Token}
    (h : ∀ x after, token = .operator (.binary .sub) → rest ≠ .number x :: after)
    (previous : Option Token) :
    expandFrom previous (token :: rest) =
      if productImplied previous token then
        .operator (.binary .mul) :: token :: expandFrom (some token) rest
      else token :: expandFrom (some token) rest := by
  rw [expandFrom]
  intro x after hsub hrest
  exact h x after hsub hrest

theorem isNegative_of_spelled_eq_number {tokens after : List Token} {x : Float}
    (h : tokens.flatMap spelled = .number x :: after) :
    isNegative x = false ∧ ∃ rest, tokens = .number x :: rest := by
  rcases tokens with _ | ⟨token, rest⟩
  · contradiction
  · rw [List.flatMap_cons] at h
    rcases token with y | op | _ | _
    · by_cases hsign : isNegative y
      · simp [spelled, hsign] at h
      · simp only [spelled, hsign, Bool.false_eq_true, if_false, List.cons_append,
          List.cons.injEq, Token.number.injEq] at h
        obtain ⟨rfl, -⟩ := h
        exact ⟨by simpa using hsign, rest, rfl⟩
    all_goals cases h

theorem expandFrom_flatMap_spelled {tokens : List Token} {previous : Option Token}
    (hfinite : ∀ x, .number x ∈ tokens → x.isFinite) (h : CleanFrom previous tokens) :
    expandFrom previous (tokens.flatMap spelled) = tokens := by
  induction tokens generalizing previous with
  | nil => rfl
  | cons token rest ih =>
      obtain ⟨hkept, hrest⟩ := h
      have hih := ih (fun x hx => hfinite x (List.mem_cons_of_mem _ hx)) hrest
      rw [List.flatMap_cons]
      by_cases hnegative : ∃ x, token = .number x ∧ isNegative x
      · obtain ⟨x, rfl, hsign⟩ := hnegative
        have hx := hfinite x List.mem_cons_self
        simp only [spelled, hsign, if_true, List.cons_append, List.nil_append]
        rw [expandFrom_signed, if_pos (operandBegins_of_kept hkept hsign),
          neg_neg_of_isFinite hx, hih]
      · have hspelled : spelled token = [token] := by
          rcases token with x | op | _ | _
          · rw [spelled, if_neg fun hsign => hnegative ⟨x, rfl, hsign⟩]
          all_goals rfl
        rw [hspelled, List.singleton_append]
        by_cases hdifference : token = .operator (.binary .sub) ∧
            ∃ x after, rest.flatMap spelled = .number x :: after
        · obtain ⟨rfl, x, after, hafter⟩ := hdifference
          obtain ⟨hsign, others, hothers⟩ := isNegative_of_spelled_eq_number hafter
          have hbegins : ¬ operandBegins previous := by
            intro hbegins
            have := hkept.sign x others rfl hothers hbegins
            rw [hsign] at this
            contradiction
          rw [hafter, expandFrom_signed, if_neg hbegins, ← hafter, hih]
        · rw [expandFrom_cons, if_neg hkept.product, hih]
          intro x after hsub hafter
          exact hdifference ⟨hsub, x, after, hafter⟩

/-- Whether no number of a sequence has a sign, as they are read. -/
def Unsigned (tokens : List Token) : Prop :=
  ∀ x, .number x ∈ tokens → x.isFinite ∧ isNegative x = false

theorem Unsigned.of_cons {token : Token} {rest : List Token}
    (h : Unsigned (token :: rest)) :
    Unsigned rest := by
  intro x hx
  exact h x (List.mem_cons_of_mem _ hx)

theorem isNegative_of_expandFrom_eq_number {rest after : List Token} {x : Float}
    {op : Operator}
    (hunsigned : Unsigned rest) (hrest : ∀ y others, rest ≠ .number y :: others)
    (h : expandFrom (some (.operator op)) rest = .number x :: after) :
    isNegative x := by
  rcases rest with _ | ⟨token, rest⟩
  · contradiction
  · by_cases hsigned : token = .operator (.binary .sub) ∧
  ∃ y others, rest = .number y :: others
    · obtain ⟨rfl, y, others, rfl⟩ := hsigned
      obtain ⟨hfinite, hsign⟩ := hunsigned y (by simp)
      rw [expandFrom_signed, operandBegins, if_pos rfl] at h
      obtain ⟨hx, -⟩ := List.cons.inj h
      rw [← Token.number.inj hx, isNegative_neg hfinite, hsign, Bool.not_false]
    · rw [expandFrom_cons, productImplied_operator_left, if_neg Bool.false_ne_true] at h
      · obtain ⟨rfl, -⟩ := List.cons.inj h
        exact absurd rfl (hrest x rest)
      · rintro y others hsub rfl
        exact hsigned ⟨hsub, y, others, rfl⟩

theorem kept_of_productImplied {previous : Option Token} {token : Token}
    {rest : List Token}
    (h : productImplied previous token) :
    Kept (some (.operator (.binary .mul))) token rest := by
  refine ⟨?_, ?_, ?_⟩
  · rw [productImplied_operator_left]
    exact Bool.false_ne_true
  · rintro x y ⟨⟩
  · rintro x after rfl
    rw [productImplied_binary_right] at h
    contradiction

theorem kept_binary {previous : Option Token} {op : Operation} {rest : List Token}
    (h : ∀ x after, op = .sub → rest = .number x :: after → operandBegins previous →
      isNegative x) : Kept previous (.operator (.binary op)) rest := by
  refine ⟨?_, ?_, ?_⟩
  · rw [productImplied_binary_right]
    exact Bool.false_ne_true
  · rintro x y - ⟨⟩
  · rintro x after ⟨⟩
    exact h x after rfl

theorem cleanFrom_expandFrom {tokens : List Token} {previous : Option Token}
    (hunsigned : Unsigned tokens) :
    CleanFrom previous (expandFrom previous tokens) := by
  induction previous, tokens using expandFrom.induct with
  | case1 previous => trivial
  | case2 previous x rest hbegins ih =>
      rw [expandFrom_signed, if_pos hbegins]
      refine ⟨⟨?_, ?_, ?_⟩, ih hunsigned.of_cons.of_cons⟩
      · rw [productImplied_number_of_operandBegins _ hbegins]
        exact Bool.false_ne_true
      · rintro y z rfl -
        contradiction
      · rintro y after ⟨⟩
  | case3 previous x rest hbegins ih =>
      rw [expandFrom_signed, if_neg hbegins]
      refine ⟨kept_binary ?_, ih hunsigned.of_cons⟩
      intro y after _ _ h
      exact absurd h hbegins
  | case4 previous token rest hshape hproduct ih =>
      rw [expandFrom_cons hshape, if_pos hproduct]
      refine ⟨kept_binary ?_, kept_of_productImplied hproduct, ih hunsigned.of_cons⟩
      rintro x after ⟨⟩
  | case5 previous token rest hshape hproduct ih =>
      rw [expandFrom_cons hshape, if_neg hproduct]
      refine ⟨⟨hproduct, ?_, ?_⟩, ih hunsigned.of_cons⟩
      · rintro x y - rfl
        rw [(hunsigned y List.mem_cons_self).2]
        exact Bool.false_ne_true
      · rintro x after rfl hafter -
        exact isNegative_of_expandFrom_eq_number hunsigned.of_cons
          (fun y others hrest => hshape y others rfl hrest) hafter

theorem isFinite_of_mem_expandFrom {tokens : List Token} {previous : Option Token}
    (hunsigned : Unsigned tokens) {x : Float}
    (h : .number x ∈ expandFrom previous tokens) :
    x.isFinite := by
  induction previous, tokens using expandFrom.induct with
  | case1 previous => contradiction
  | case2 previous y rest hbegins ih =>
      rw [expandFrom_signed, if_pos hbegins] at h
      rcases List.mem_cons.mp h with heq | h
      · rw [Token.number.inj heq]
        exact isFinite_neg (hunsigned y (by simp)).1
      · exact ih hunsigned.of_cons.of_cons h
  | case3 previous y rest hbegins ih =>
      rw [expandFrom_signed, if_neg hbegins] at h
      rcases List.mem_cons.mp h with heq | h
      · contradiction
      · exact ih hunsigned.of_cons h
  | case4 previous token rest hshape hproduct ih =>
      rw [expandFrom_cons hshape, if_pos hproduct] at h
      rcases List.mem_cons.mp h with heq | h
      · contradiction
      · rcases List.mem_cons.mp h with rfl | h
        · exact (hunsigned x List.mem_cons_self).1
        · exact ih hunsigned.of_cons h
  | case5 previous token rest hshape hproduct ih =>
      rw [expandFrom_cons hshape, if_neg hproduct] at h
      rcases List.mem_cons.mp h with rfl | h
      · exact (hunsigned x List.mem_cons_self).1
      · exact ih hunsigned.of_cons h

theorem expandFrom_ne_nil {tokens : List Token} (h : tokens ≠ [])
    (previous : Option Token) :
    expandFrom previous tokens ≠ [] := by
  intro hnil
  unfold expandFrom at hnil
  split at hnil
  · exact h rfl
  · split at hnil <;> contradiction
  · split at hnil <;> contradiction

section

variable {tokens : List Token}

theorem kept_of_cleanFrom {previous : Option Token} {before after : List Token}
    {token : Token} (h : CleanFrom previous (before ++ token :: after)) :
    Kept (before.getLast?.or previous) token after := by
  induction before generalizing previous with
  | nil => exact h.1
  | cons first before ih =>
      have hkept := ih h.2
      rw [List.getLast?_cons]
      rcases hlast : before.getLast? with _ | last
      · rw [hlast] at hkept
        exact hkept
      · rw [hlast] at hkept
        exact hkept

theorem cleanFrom_of_kept (before : List Token)
    (h : ∀ first token after, tokens = first ++ token :: after →
      Kept (before ++ first).getLast? token after) : CleanFrom before.getLast? tokens := by
  induction tokens generalizing before with
  | nil => trivial
  | cons token rest ih =>
      have hkept := h [] token rest rfl
      rw [List.append_nil] at hkept
      have hrest : CleanFrom (before ++ [token]).getLast? rest := by
        apply ih
        rintro first next after rfl
        rw [List.append_assoc]
        exact h (token :: first) next after rfl
      rw [List.getLast?_concat] at hrest
      exact ⟨hkept, hrest⟩

theorem kept_getLast? (h : Clean tokens) {before after : List Token} {token : Token}
    (htokens : tokens = before ++ token :: after) :
    Kept before.getLast? token after := by
  refine ⟨?_, ?_, ?_⟩
  · rcases hlast : before.getLast? with _ | last
    · simp [productImplied]
    · obtain ⟨init, rfl⟩ := List.getLast?_eq_some_iff.mp hlast
      exact h.products init last token after (by simpa using htokens)
  · rintro x y hlast rfl
    obtain ⟨init, rfl⟩ := List.getLast?_eq_some_iff.mp hlast
    exact h.differences init x y after (by simpa using htokens)
  · rintro x others rfl rfl hbegins
    exact h.signs before x others htokens hbegins

theorem clean_iff : Clean tokens ↔
    tokens ≠ [] ∧ (∀ x, .number x ∈ tokens → x.isFinite) ∧ CleanFrom none tokens := by
  constructor
  · intro h
    refine ⟨h.nonempty, h.finite, cleanFrom_of_kept [] ?_⟩
    intro first token after htokens
    exact kept_getLast? h htokens
  · rintro ⟨hnonempty, hfinite, hclean⟩
    have hkept (before : List Token) (token : Token) (after : List Token)
        (htokens : tokens = before ++ token :: after) : Kept before.getLast? token after := by
      rw [htokens] at hclean
      have := kept_of_cleanFrom hclean
      rwa [Option.or_none] at this
    have hbehind (before : List Token) (token next : Token) (after : List Token)
        (htokens : tokens = before ++ token :: next :: after) :
        Kept (some token) next after := by
      rw [← List.getLast?_concat]
      exact hkept (before ++ [token]) next after (by simpa using htokens)
    refine ⟨hnonempty, hfinite, ?_, ?_, ?_⟩
    · intro before token next after htokens
      exact (hbehind before token next after htokens).product
    · intro before x y after htokens
      exact (hbehind before _ _ after htokens).difference x y rfl rfl
    · intro before x after htokens hbegins
      exact (hkept before _ _ htokens).sign x after rfl rfl hbegins

end

end Calculator.Shorthand
