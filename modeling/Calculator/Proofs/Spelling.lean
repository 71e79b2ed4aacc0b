import Calculator.Proofs.NumberText
import Calculator.Token

namespace Calculator.Lexer

open Calculator.Binary64
open Calculator.Text

/-- The tokens that one written token is read as. -/
def spelled : Token → List Token
  | .number x => if isNegative x then [.operator (.binary .sub), .number (-x)] else [.number x]
  | token => [token]

theorem spelled_ne_nil (token : Token) : spelled token ≠ [] := by
  rcases token with x | op | _ | _ <;> simp only [spelled, ne_eq]
  · split <;> exact List.cons_ne_nil _ _
  all_goals exact List.cons_ne_nil _ _

theorem tokens_blank {c : Char} {rest : List Char} (h : isBlank c) :
    tokens (c :: rest) = tokens rest := by
  rw [tokens, if_pos h]

theorem tokens_of_token {c : Char} {rest after : List Char} {first : Token}
    (hblank : isBlank c = false) (htoken : token c rest = (.ok first, after)) :
    tokens (c :: rest) = ((tokens after).1.map (first :: ·), (tokens after).2) := by
  rw [tokens, if_neg (by simp [hblank])]
  split
  · rename_i fault found hfound
    rw [htoken] at hfound
    cases hfound
  · rename_i found foundAfter hfound
    rw [htoken] at hfound
    cases hfound
    rfl

theorem tokens_of_fault {c : Char} {rest after : List Char} {fault : Fault}
    (hblank : isBlank c = false) (htoken : token c rest = (.error fault, after)) :
    tokens (c :: rest) = (.error fault, after) := by
  rw [tokens, if_neg (by simp [hblank])]
  split
  · rename_i found foundAfter hfound
    rw [htoken] at hfound
    cases hfound
    rfl
  · rename_i found foundAfter hfound
    rw [htoken] at hfound
    cases hfound

theorem tokens_symbol {c : Char} {rest behind : List Char} {symbol : Token}
    {others : List Token}
    (hblank : isBlank c = false) (hpart : Literal.isPart c = false)
    (hsymbol : Token.ofSymbol? c = some symbol)
    (hrest : tokens rest = (.ok others, behind)) :
    tokens (c :: rest) = (.ok (symbol :: others), behind) := by
  have htoken : token c rest = (.ok symbol, rest) := by
    rw [token, if_neg (by simp [hpart]), hsymbol]
  rw [tokens_of_token hblank htoken, hrest]
  rfl

theorem isBlank_of_isDigit {c : Char} (h : c.isDigit) : isBlank c = false := by
  have hbounds : 48 ≤ c.toNat ∧ c.toNat ≤ 57 := by
    simpa [Char.isDigit, UInt32.le_iff_toNat_le] using h
  simp only [isBlank, blankRanges, List.any_cons, List.any_nil, Bool.or_false,
    Bool.or_eq_false_iff, decide_eq_false_iff_not]
  omega

theorem tokens_decimal {d : Decimal} {rest behind : List Char} {others : List Token}
    (hfinite : d.toFloat.isFinite) (hends : Literal.endsBefore rest)
    (hrest : tokens rest = (.ok others, behind)) :
    tokens (d.chars ++ rest) = (.ok (.number d.toFloat :: others), behind) := by
  obtain ⟨c, digits, hchars, hdigit⟩ := Literal.exists_digit_of_chars d
  have hread := Literal.read_decimal_append d hends
  rw [hchars, List.cons_append] at hread ⊢
  have htoken : token c (digits ++ rest) = (.ok (.number d.toFloat), rest) := by
    rw [token, if_pos (by simp [Literal.isPart, hdigit]), hread]
    simp only [number, Literal.endsInPoint_ofDecimal, Literal.decimal_ofDecimal,
      hfinite, if_true]
    rfl
  rw [tokens_of_token (isBlank_of_isDigit hdigit) htoken, hrest]
  rfl

theorem tokens_magnitude {x : Float} {rest behind : List Char} {others : List Token}
    (hfinite : x.isFinite) (hsign : isNegative x = false)
    (hends : Literal.endsBefore rest) (hrest : tokens rest = (.ok others, behind)) :
    tokens ((Decimal.shortest (code x)).chars ++ rest) =
      (.ok (.number x :: others), behind) := by
  have hmagnitude := toFloat_shortest hfinite hsign
  generalize Decimal.shortest (code x) = d at hmagnitude
  subst hmagnitude
  exact tokens_decimal hfinite hends hrest

theorem tokens_numberChars {x : Float} {rest behind : List Char} {others : List Token}
    (hfinite : x.isFinite) (hends : Literal.endsBefore rest)
    (hrest : tokens rest = (.ok others, behind)) :
    tokens (numberChars x ++ rest) = (.ok (spelled (.number x) ++ others), behind) := by
  rw [numberChars_of_isFinite hfinite, spelled]
  split
  · rename_i hsign
    have hopposite : isNegative (-x) = false := by
      rw [isNegative_neg hfinite, hsign, Bool.not_true]
    have hmagnitude := tokens_magnitude (isFinite_neg hfinite) hopposite hends hrest
    rw [code_neg hfinite] at hmagnitude
    rw [List.cons_append, List.cons_append]
    exact tokens_symbol (by decide) (by decide) rfl hmagnitude
  · rename_i hsign
    exact tokens_magnitude hfinite (by simpa using hsign) hends hrest

theorem isPart_symbol (op : Operator) : Literal.isPart op.symbol = false := by
  rcases op with op | _
  · cases op <;> decide
  · decide

theorem isBlank_symbol (op : Operator) : isBlank op.symbol = false := by
  rcases op with op | _
  · cases op <;> decide
  · decide

theorem tokens_chars {token : Token} {rest behind : List Char} {others : List Token}
    (hfinite : ∀ x, token = .number x → x.isFinite)
    (hends : token.isNumber → Literal.endsBefore rest)
    (hrest : tokens rest = (.ok others, behind)) :
    tokens (token.chars ++ rest) = (.ok (spelled token ++ others), behind) := by
  rcases token with x | op | _ | _
  · exact tokens_numberChars (hfinite x rfl) (hends rfl) hrest
  · exact tokens_symbol (isBlank_symbol op) (isPart_symbol op) (Token.ofSymbol?_symbol op)
      hrest
  · exact tokens_symbol (by decide) (by decide) rfl hrest
  · exact tokens_symbol (by decide) (by decide) rfl hrest

theorem endsBefore_writtenChars {token : Token} (h : token.isNumber = false)
    (rest : List Token) :
    Literal.endsBefore (Token.writtenChars (token :: rest)) := by
  intro c hc
  rcases token with x | op | _ | _
  · contradiction
  all_goals
    rcases rest with _ | ⟨next, rest⟩ <;>
      simp [Token.writtenChars, Token.chars] at hc <;> subst hc
  · exact isPart_symbol op
  · exact isPart_symbol op
  all_goals decide

theorem endsBefore_gap {token : Token} (h : token.isNumber) (next : Token)
    (rest : List Token) :
    Literal.endsBefore (Token.gap token next ++ Token.writtenChars (next :: rest)) := by
  rcases token with x | op | _ | _
  · rcases hnext : next with y | op | _ | _
    · intro c hc
      cases hc
      decide
    all_goals exact endsBefore_writtenChars rfl rest
  all_goals contradiction

theorem tokens_gap (token next : Token) (rest : List Char) :
    tokens (Token.gap token next ++ rest) = tokens rest := by
  rcases token with x | op | _ | _
  · rcases next with y | op | _ | _
    · exact tokens_blank (by decide)
    all_goals rfl
  all_goals rfl

theorem tokens_writtenChars {sequence : List Token}
    (hfinite : ∀ x, .number x ∈ sequence → x.isFinite) :
    tokens (Token.writtenChars sequence) = (.ok (sequence.flatMap spelled), []) := by
  induction sequence with
  | nil =>
      rw [Token.writtenChars, tokens]
      rfl
  | cons token rest ih =>
      have hfirst : ∀ x, token = .number x → x.isFinite := by
        rintro x rfl
        exact hfinite x List.mem_cons_self
      have hrest := ih fun x hx => hfinite x (List.mem_cons_of_mem _ hx)
      rw [List.flatMap_cons]
      rcases rest with _ | ⟨next, rest⟩
      · rw [Token.writtenChars, ← List.append_nil token.chars]
        refine tokens_chars hfirst ?_ hrest
        intro _ c hc
        contradiction
      · rw [Token.writtenChars, List.append_assoc]
        refine tokens_chars hfirst (fun h => endsBefore_gap h next rest) ?_
        rw [tokens_gap]
        exact hrest

theorem lex_writtenChars {sequence : List Token} (hnonempty : sequence ≠ [])
    (hfinite : ∀ x, .number x ∈ sequence → x.isFinite) :
    lex (Token.writtenChars sequence) = (.ok (sequence.flatMap spelled), []) := by
  rw [lex, tokens_writtenChars hfinite]
  split
  · rename_i behind hnil
    obtain ⟨token, rest, rfl⟩ := List.exists_cons_of_ne_nil hnonempty
    simp only [Prod.mk.injEq, Except.ok.injEq, List.flatMap_eq_nil_iff] at hnil
    exact absurd (hnil.1 token List.mem_cons_self) (spelled_ne_nil token)
  · rfl

end Calculator.Lexer
