import Calculator.Expression
import Calculator.Proofs.Unabridged

namespace Calculator

open Calculator.Binary64
open Calculator.Lexer
open Calculator.Shorthand

theorem Token.ofSymbol?_ne_number (c : Char) (x : Float) :
    ofSymbol? c ≠ some (number x) := by
  intro h
  unfold ofSymbol? at h
  split at h <;> cases h

namespace Lexer

theorem number_eq_ok {literal : Literal} {token : Token}
    (h : number literal = .ok token) :
    token = .number literal.decimal.toFloat ∧ literal.decimal.toFloat.isFinite := by
  unfold number at h
  split at h
  · contradiction
  · split at h
    · rename_i hfinite
      cases h
      exact ⟨rfl, hfinite⟩
    · contradiction

theorem unsigned_of_token {c : Char} {rest after : List Char} {first : Token}
    (h : token c rest = (.ok first, after)) : Unsigned [first] := by
  intro x hx
  rw [List.mem_singleton] at hx
  subst hx
  unfold token at h
  split at h
  · obtain ⟨hnumber, -⟩ := Prod.mk.inj h
    obtain ⟨hx, hfinite⟩ := number_eq_ok hnumber
    rw [Token.number.inj hx]
    exact ⟨hfinite, isNegative_ofCode false (nearestCode_le _ _)⟩
  · split at h
    · rename_i symbol hsymbol
      cases h
      exact absurd hsymbol (Token.ofSymbol?_ne_number c x)
    · cases h

theorem unsigned_of_tokens {text : List Char} {sequence : List Token}
    (h : (tokens text).1 = .ok sequence) : Unsigned sequence := by
  induction text using tokens.induct generalizing sequence with
  | case1 =>
      rw [tokens] at h
      cases h
      intro x hx
      contradiction
  | case2 c rest hblank ih =>
      rw [tokens_blank hblank] at h
      exact ih h
  | case3 c rest hblank fault after htoken =>
      rw [tokens_of_fault (by simpa using hblank) htoken] at h
      contradiction
  | case4 c rest hblank first after htoken hlength others behind hafter ih =>
      rw [tokens_of_token (by simpa using hblank) htoken] at h
      rcases hothers : (tokens after).1 with fault | following
      · rw [hothers] at h
        contradiction
      · rw [hothers] at h
        cases h
        intro x hx
        rcases List.mem_cons.mp hx with rfl | hx
        · exact unsigned_of_token htoken x List.mem_cons_self
        · exact ih hothers x hx

theorem lex_eq_ok {text : List Char} {sequence : List Token}
    (h : (lex text).1 = .ok sequence) :
    sequence ≠ [] ∧ Unsigned sequence := by
  unfold lex at h
  split at h
  · contradiction
  · rename_i hne
    refine ⟨?_, unsigned_of_tokens h⟩
    rintro rfl
    exact hne (tokens text).2 (Prod.ext h rfl)

end Lexer

theorem clean_of_tokenize {text : String} {tokens : List Token}
    (h : (tokenize text).result = .ok tokens) : Clean tokens := by
  rw [result_tokenize] at h
  rcases hlex : (lex text.toList).1 with fault | written
  · rw [hlex] at h
    contradiction
  · rw [hlex] at h
    cases h
    obtain ⟨hnonempty, hunsigned⟩ := lex_eq_ok hlex
    rw [clean_iff]
    refine ⟨expandFrom_ne_nil hnonempty none, ?_, cleanFrom_expandFrom hunsigned⟩
    intro x hx
    exact isFinite_of_mem_expandFrom hunsigned hx

theorem result_tokenize_written {tokens : List Token} (h : Clean tokens) :
    (tokenize (Token.written tokens)).result = .ok tokens := by
  rw [clean_iff] at h
  obtain ⟨hnonempty, hfinite, hclean⟩ := h
  rw [result_tokenize, Token.written, String.toList_ofList,
    lex_writtenChars hnonempty hfinite]
  exact congrArg Except.ok (expandFrom_flatMap_spelled hfinite hclean)

theorem Token.beq_self {token : Token} (h : ∀ x, token = .number x → x.isFinite) :
    token == token := by
  rcases token with x | op | _ | _
  · exact beq_self_of_isFinite (h x rfl)
  · exact beq_self_eq_true op
  · rfl
  · rfl

theorem Token.beq_self_sequence {tokens : List Token}
    (h : ∀ x, .number x ∈ tokens → x.isFinite) : tokens == tokens := by
  induction tokens with
  | nil => rfl
  | cons token rest ih =>
      rw [List.cons_beq_cons, Bool.and_eq_true]
      constructor
      · apply beq_self
        rintro x rfl
        exact h x List.mem_cons_self
      · apply ih
        intro x hx
        exact h x (List.mem_cons_of_mem _ hx)

theorem Expression.result_parse_text {text : String} {expression : Expression}
    (h : (Expression.parse text).result = .ok expression) :
    (Expression.parse expression.text).result = .ok expression := by
  rw [parse_eq_ok] at h ⊢
  exact result_tokenize_written (clean_of_tokenize h)

/-- The tokens that are read back from their text are the clean ones, and those of
any text are among them. So reading, writing and reading again is reading once,
and an expression that is read back from its text equals the first and has its
value in every precision. -/
theorem tokenize_written_iff_clean :
    (∀ tokens, (tokenize (Token.written tokens)).result = .ok tokens ↔ Clean tokens) ∧
    (∀ text tokens, (tokenize text).result = .ok tokens → Clean tokens) ∧
    (∀ text tokens, (tokenize text).result = .ok tokens →
      (tokenize (Token.written tokens)).result = .ok tokens) ∧
    ∀ text expression, (Expression.parse text).result = .ok expression →
      ∃ again, (Expression.parse expression.text).result = .ok again ∧
        again = expression ∧ again == expression ∧ ∀ precision,
          (again.evaluate precision).result = (expression.evaluate precision).result := by
  refine ⟨?_, ?_, ?_, ?_⟩
  · intro tokens
    constructor
    · exact clean_of_tokenize
    · exact result_tokenize_written
  · intro text tokens
    exact clean_of_tokenize
  · intro text tokens h
    exact result_tokenize_written (clean_of_tokenize h)
  · intro text expression h
    refine ⟨expression, Expression.result_parse_text h, rfl, ?_, ?_⟩
    · have hclean := clean_of_tokenize (Expression.parse_eq_ok.mp h)
      exact Token.beq_self_sequence hclean.finite
    · intro precision
      rfl

theorem tokenize_written_difference : ∃ expression : Expression,
    expression.tokens =
        [.number (ofCode true 0), .operator (.binary .sub), .number (ofCode true 0)] ∧
      (tokenize expression.text).result = .ok expression.tokens ∧
      Clean expression.tokens ∧
      ∃ again, (Expression.parse expression.text).result = .ok again ∧
      again = expression := by
  have hfinite : (ofCode true 0).isFinite := isFinite_ofCode true (by decide)
  have hclean : Clean
      [.number (ofCode true 0), .operator (.binary .sub), .number (ofCode true 0)] := by
    rw [clean_iff]
    refine ⟨List.cons_ne_nil _ _, ?_, ⟨?_, ?_, ?_⟩, kept_binary ?_,
      ⟨?_, ?_, ?_⟩, trivial⟩
    · simp [hfinite]
    · exact Bool.false_ne_true
    · rintro x y ⟨⟩
    · rintro x after ⟨⟩
    · rintro x after - - ⟨⟩
    · exact Bool.false_ne_true
    · rintro x y ⟨⟩
    · rintro x after ⟨⟩
  obtain ⟨hiff, himage, -, hparse⟩ := tokenize_written_iff_clean
  have hread := (hiff _).mpr hclean
  let expression : Expression :=
    ⟨[.number (ofCode true 0), .operator (.binary .sub), .number (ofCode true 0)], rfl, rfl⟩
  have hexpression : (Expression.parse expression.text).result = .ok expression :=
    Expression.parse_eq_ok.mpr hread
  obtain ⟨again, hagain, heq, -⟩ := hparse _ _ hexpression
  exact ⟨expression, rfl, hread, himage _ _ hread, again, hagain, heq⟩

end Calculator
