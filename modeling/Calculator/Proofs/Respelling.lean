import Calculator.Proofs.LexicalGrammar
import Calculator.Proofs.Value
import Mathlib.Logic.Relation

namespace Calculator

open Calculator.Literal
open Calculator.Text
open Relation (ReflTransGen)

/-- Two texts run together if the last character of the first and the first one of
the second are digits or points. -/
def RunTogether (before after : List Char) : Prop :=
  ∃ c ∈ before.getLast?, ∃ d ∈ after.head?,
    (c.isDigit ∨ c = '.') ∧ (d.isDigit ∨ d = '.')

section Cut

theorem isPart_iff {c : Char} : isPart c ↔ c.isDigit ∨ c = '.' := by
  rw [isPart, Bool.or_eq_true, beq_iff_eq]

theorem not_runTogether_of_not_part (before after : List Char) {c : Char}
    (h : isPart c = false) : ¬ RunTogether before (c :: after) := by
  rintro ⟨-, -, d, hd, -, hpart⟩
  obtain rfl : c = d := Option.some.inj hd
  rw [isPart_iff.mpr hpart] at h
  contradiction

namespace Lexeme

theorem ofText_append_of_not_runTogether {before after : List Char}
    (h : ¬ RunTogether before after) :
    ofText (before ++ after) = ofText before ++ ofText after := by
  have happart : ∀ c ∈ before.getLast?, ∀ d ∈ after.head?, (isPart c && isPart d) =
      false := by
    intro c hc d hd
    apply eq_false_of_ne_true
    intro hparts
    obtain ⟨hcpart, hdpart⟩ := Bool.and_eq_true_iff.mp hparts
    exact h ⟨c, hc, d, hd, isPart_iff.mp hcpart, isPart_iff.mp hdpart⟩
  rw [ofText, List.splitBy_append happart, List.flatMap_append]
  rfl

theorem ofText_append_blank (before after : List Char) {c : Char} (h : isBlank c) :
    ofText (before ++ c :: after) = ofText before ++ ofText after := by
  have hpart := isPart_of_isBlank h
  rw [ofText_append_of_not_runTogether (not_runTogether_of_not_part before after hpart),
    ofText_blank h]

end Lexeme

namespace Lexer

open Calculator.Lexeme

theorem lex_eq_mapM {text : List Char} (h : ofText text ≠ []) :
    (lex text).1 = (ofText text).mapM Lexeme.token := by
  rw [lex_eq_tokens h, Lexeme.tokens_eq_mapM]

theorem lex_of_ofText_eq_nil {text : List Char} (h : ofText text = []) :
    (lex text).1 = .error .emptyExpression :=
  lex_of_blank (Lexeme.ofText_eq_nil_iff.mp h)

theorem lex_congr {text other : List Char} (hnil : ofText text = [] ↔ ofText other = [])
    (htokens : (ofText text).mapM Lexeme.token = (ofText other).mapM Lexeme.token) :
    (lex text).1 = (lex other).1 := by
  by_cases hblank : ofText text = []
  · rw [lex_of_ofText_eq_nil hblank, lex_of_ofText_eq_nil (hnil.mp hblank)]
  · rw [lex_eq_mapM hblank, lex_eq_mapM (mt hnil.mpr hblank), htokens]

theorem lex_eq_of_ofText_eq {text other : List Char} (h : ofText text = ofText other) :
    (lex text).1 = (lex other).1 :=
  lex_congr (by rw [h]) (by rw [h])

theorem not_blank_of_lex {text : List Char} {tokens : List Token}
    (h : (lex text).1 = .ok tokens) : ¬ ∀ c ∈ text, isBlank c := by
  intro hblank
  rw [lex_of_blank hblank] at h
  contradiction

section Parts

variable {before after : List Char}

theorem lex_blank_append (h : ¬ RunTogether before after)
    (hblank : ∀ c ∈ before, isBlank c) :
    (lex (before ++ after)).1 = (lex after).1 := by
  apply lex_eq_of_ofText_eq
  rw [Lexeme.ofText_append_of_not_runTogether h, Lexeme.ofText_eq_nil_iff.mpr hblank,
    List.nil_append]

theorem lex_append_blank (h : ¬ RunTogether before after)
    (hblank : ∀ c ∈ after, isBlank c) :
    (lex (before ++ after)).1 = (lex before).1 := by
  apply lex_eq_of_ofText_eq
  rw [Lexeme.ofText_append_of_not_runTogether h, Lexeme.ofText_eq_nil_iff.mpr hblank,
    List.append_nil]

theorem lex_append (h : ¬ RunTogether before after)
    (hbefore : ¬ ∀ c ∈ before, isBlank c) (hafter : ¬ ∀ c ∈ after, isBlank c) :
    (lex (before ++ after)).1 = do
      let tokens ← (lex before).1
      let others ← (lex after).1
      return tokens ++ others := by
  have hbefore := mt Lexeme.ofText_eq_nil_iff.mp hbefore
  have hafter := mt Lexeme.ofText_eq_nil_iff.mp hafter
  have happend := Lexeme.ofText_append_of_not_runTogether h
  have hne : ofText (before ++ after) ≠ [] := by
    rw [happend]
    exact List.append_ne_nil_of_left_ne_nil hbefore _
  rw [lex_eq_mapM hne, lex_eq_mapM hbefore, lex_eq_mapM hafter, happend,
    List.mapM_append]

end Parts

end Lexer

end Cut

section Spelling

/-- The sign on the keyboard and the sign in print of a product, a quotient and a
difference. -/
def spellings : List (Char × Char) :=
  [('*', '×'), ('/', '÷'), ('-', '−')]

/-- A change of a text at one place that does not change what it is read as: a blank
is put in or taken out that does not stand between two characters of numbers,
another blank is put in its place, or the other sign of an operation. -/
inductive Respells : List Char → List Char → Prop
  | insert (before after : List Char) {c : Char} (hblank : isBlank c)
      (happart : ¬ RunTogether before after) :
      Respells (before ++ after) (before ++ c :: after)
  | remove (before after : List Char) {c : Char} (hblank : isBlank c)
      (happart : ¬ RunTogether before after) :
      Respells (before ++ c :: after) (before ++ after)
  | replace (before after : List Char) {c d : Char} (hc : isBlank c) (hd : isBlank d) :
      Respells (before ++ c :: after) (before ++ d :: after)
  | exchange (before after : List Char) {c d : Char}
      (hsigns : (c, d) ∈ spellings ∨ (d, c) ∈ spellings) :
      Respells (before ++ c :: after) (before ++ d :: after)

theorem spellings_alike {c d : Char} (h : (c, d) ∈ spellings) :
    (isPart c = false ∧ isBlank c = false) ∧ (isPart d = false ∧ isBlank d = false) ∧
      ∃ symbol, Token.ofSymbol? c = some symbol ∧ Token.ofSymbol? d = some symbol := by
  simp only [spellings, List.mem_cons, Prod.mk.injEq, List.not_mem_nil, or_false] at h
  rcases h with ⟨rfl, rfl⟩ | ⟨rfl, rfl⟩ | ⟨rfl, rfl⟩
  · exact ⟨by decide, by decide, _, rfl, rfl⟩
  · exact ⟨by decide, by decide, _, rfl, rfl⟩
  · exact ⟨by decide, by decide, _, rfl, rfl⟩

namespace Lexeme

theorem ofText_append_sign (before after : List Char) {c : Char}
    (hpart : isPart c = false) (hblank : isBlank c = false) :
    ofText (before ++ c :: after) = ofText before ++ .sign c :: ofText after := by
  have hsign : ofText (c :: after) = .sign c :: ofText after :=
    ofText_append (.sign hpart hblank)
  rw [ofText_append_of_not_runTogether (not_runTogether_of_not_part before after hpart),
    hsign]

end Lexeme

namespace Lexer

theorem lex_exchange (before after : List Char) {c d : Char} (h : (c, d) ∈ spellings) :
    (lex (before ++ c :: after)).1 = (lex (before ++ d :: after)).1 := by
  obtain ⟨⟨hcpart, hcblank⟩, ⟨hdpart, hdblank⟩, symbol, hc, hd⟩ := spellings_alike h
  have htoken : Lexeme.token (.sign c) = Lexeme.token (.sign d) := by
    simp only [Lexeme.token, hc, hd]
  apply lex_congr
  · rw [Lexeme.ofText_append_sign before after hcpart hcblank,
      Lexeme.ofText_append_sign before after hdpart hdblank]
    simp
  · rw [Lexeme.ofText_append_sign before after hcpart hcblank,
      Lexeme.ofText_append_sign before after hdpart hdblank, List.mapM_append,
      List.mapM_append, List.mapM_cons, List.mapM_cons, htoken]

theorem lex_of_respells {text other : List Char} (h : Respells text other) :
    (lex text).1 = (lex other).1 := by
  cases h with
  | insert before after hblank happart =>
      apply lex_eq_of_ofText_eq
      rw [Lexeme.ofText_append_of_not_runTogether happart,
        Lexeme.ofText_append_blank before after hblank]
  | remove before after hblank happart =>
      apply lex_eq_of_ofText_eq
      rw [Lexeme.ofText_append_of_not_runTogether happart,
        Lexeme.ofText_append_blank before after hblank]
  | replace before after hc hd =>
      apply lex_eq_of_ofText_eq
      rw [Lexeme.ofText_append_blank before after hc,
        Lexeme.ofText_append_blank before after hd]
  | exchange before after hsigns =>
      rcases hsigns with hsigns | hsigns
      · exact lex_exchange before after hsigns
      · exact (lex_exchange before after hsigns).symm

theorem lex_of_reflTransGen {text other : List Char}
    (h : ReflTransGen Respells text other) :
    (lex text).1 = (lex other).1 := by
  induction h with
  | refl => rfl
  | tail _ hstep ih => exact ih.trans (lex_of_respells hstep)

end Lexer

theorem result_tokenize_of_respelled {text other : String}
    (h : ReflTransGen Respells text.toList other.toList) :
    (tokenize other).result = (tokenize text).result := by
  rw [result_tokenize, result_tokenize, Lexer.lex_of_reflTransGen h]

end Spelling

section Values

variable {text : String} {tokens : List Token}

theorem Expression.parse_malformed (htokens : (tokenize text).result = .ok tokens)
    (haccepts : ¬ Shape.accepts tokens) :
    (Expression.parse text).result = .error (.malformedExpression (trim text)) := by
  rw [Expression.parse, Outcome.result_bind_of_ok _ htokens,
    Outcome.result_bind_of_ok _ (result_checkShape tokens), dif_neg haccepts]
  rfl

theorem Expression.parse_unbalanced (htokens : (tokenize text).result = .ok tokens)
    (haccepts : Shape.accepts tokens) (hbalanced : ¬ Bracket.isBalanced tokens) :
    (Expression.parse text).result = .error (.unbalancedBrackets (trim text)) := by
  rw [Expression.parse, Outcome.result_bind_of_ok _ htokens,
    Outcome.result_bind_of_ok _ (result_checkShape tokens), dif_pos haccepts,
    dif_neg hbalanced]
  rfl

theorem result_calculate_of_fault {fault : Fault}
    (h : (Expression.parse text).result = .error fault) :
    (calculate text).result = .error fault := by
  rw [calculate, Outcome.result_bind, h]
  rfl

theorem result_calculate_of_tokens {other : String}
    (h : (tokenize other).result = (tokenize text).result) :
    (calculate other).result = (calculate text).result ∨
      ((calculate text).result = .error (.malformedExpression (trim text)) ∧
        (calculate other).result = .error (.malformedExpression (trim other))) ∨
      ((calculate text).result = .error (.unbalancedBrackets (trim text)) ∧
        (calculate other).result = .error (.unbalancedBrackets (trim other))) := by
  rcases htext : (tokenize text).result with fault | tokens
  · have hfault {quoted : String} (hquoted : (tokenize quoted).result = .error fault) :
        (calculate quoted).result = .error fault := by
      apply result_calculate_of_fault
      rw [Expression.parse, Outcome.result_bind, hquoted]
      rfl
    exact .inl ((hfault (h.trans htext)).trans (hfault htext).symm)
  · have hother := h.trans htext
    by_cases haccepts : Shape.accepts tokens
    · by_cases hbalanced : Bracket.isBalanced tokens
      · let expression : Expression := ⟨tokens, haccepts, hbalanced⟩
        have hparse {same : String} (hsame : (tokenize same).result = .ok tokens) :
            (Expression.parse same).result = .ok expression :=
          Expression.parse_eq_ok.mpr hsame
        refine .inl ?_
        rw [calculate, calculate, Outcome.result_bind_of_ok _ (hparse hother),
          Outcome.result_bind_of_ok _ (hparse htext)]
      · exact .inr (.inr
          ⟨result_calculate_of_fault (Expression.parse_unbalanced htext haccepts hbalanced),
            result_calculate_of_fault (Expression.parse_unbalanced hother haccepts hbalanced)⟩)
    · exact .inr (.inl
        ⟨result_calculate_of_fault (Expression.parse_malformed htext haccepts),
          result_calculate_of_fault (Expression.parse_malformed hother haccepts)⟩)

end Values

open Calculator.Lexer

/-- Two texts that do not run together are read one after the other, up to the first
fault, and a blank one of them leaves the other. So blanks that do not keep two
numbers apart, other blanks and the other signs of operations change neither the
tokens of a text nor the fault of one that has none, and its value or the fault of
that only in the text that the fault quotes. -/
theorem lex_part_by_part :
    (∀ before after, ¬ RunTogether before after →
      ((∀ c ∈ before, isBlank c) → (lex (before ++ after)).1 = (lex after).1) ∧
      ((∀ c ∈ after, isBlank c) → (lex (before ++ after)).1 = (lex before).1) ∧
      (∀ tokens others, (lex before).1 = .ok tokens → (lex after).1 = .ok others →
        (lex (before ++ after)).1 = .ok (tokens ++ others)) ∧
      (∀ fault, (¬ ∀ c ∈ before, isBlank c) → (lex before).1 = .error fault →
        (lex (before ++ after)).1 = .error fault) ∧
      ∀ tokens fault, (lex before).1 = .ok tokens → (¬ ∀ c ∈ after, isBlank c) →
        (lex after).1 = .error fault → (lex (before ++ after)).1 = .error fault) ∧
    ∀ text other : String, ReflTransGen Respells text.toList other.toList →
      (tokenize other).result = (tokenize text).result ∧
      ((calculate other).result = (calculate text).result ∨
        ((calculate text).result = .error (.malformedExpression (trim text)) ∧
          (calculate other).result = .error (.malformedExpression (trim other))) ∨
        ((calculate text).result = .error (.unbalancedBrackets (trim text)) ∧
          (calculate other).result = .error (.unbalancedBrackets (trim other)))) := by
  refine ⟨?_, ?_⟩
  · intro before after happart
    refine ⟨Lexer.lex_blank_append happart, Lexer.lex_append_blank happart, ?_, ?_, ?_⟩
    · intro tokens others hbefore hafter
      rw [Lexer.lex_append happart (Lexer.not_blank_of_lex hbefore)
        (Lexer.not_blank_of_lex hafter), hbefore, hafter]
      rfl
    · intro fault hnonblank hbefore
      by_cases hblank : ∀ c ∈ after, isBlank c
      · rw [Lexer.lex_append_blank happart hblank, hbefore]
      · rw [Lexer.lex_append happart hnonblank hblank, hbefore]
        rfl
    · intro tokens fault hbefore hnonblank hafter
      rw [Lexer.lex_append happart (Lexer.not_blank_of_lex hbefore) hnonblank,
        hbefore, hafter]
      rfl
  · intro text other h
    have htokens := result_tokenize_of_respelled h
    exact ⟨htokens, result_calculate_of_tokens htokens⟩

/-- In `2.*` the literal ends in its point, and no blank and no other sign
behind it mends that. -/
theorem lex_part_by_part_point :
    (lex "2.*".toList).1 = .error (.malformedLiteral ⟨['2'], some []⟩) ∧
      ReflTransGen Respells "2.*".toList "2. ×".toList ∧
      (calculate "2. ×").result = .error (.malformedLiteral ⟨['2'], some []⟩) := by
  have happart (sign : Char) (h : isPart sign = false) : ¬ RunTogether "2.".toList [sign] :=
    not_runTogether_of_not_part _ _ h
  have hlexemes : Lexeme.ofText "2.".toList = [.literal ⟨['2'], some []⟩] := by
    rfl
  have hpoint : (lex "2.".toList).1 = .error (.malformedLiteral ⟨['2'], some []⟩) := by
    rw [Lexer.lex_eq_mapM (by rw [hlexemes]; exact List.cons_ne_nil _ _), hlexemes]
    rfl
  have hnonblank : ¬ ∀ c ∈ "2.".toList, isBlank c :=
    fun hblank => absurd (hblank '2' List.mem_cons_self) (by decide)
  have htext : (lex "2.*".toList).1 = .error (.malformedLiteral ⟨['2'], some []⟩) :=
    (lex_part_by_part.1 _ _ (happart '*' (by decide))).2.2.2.1 _ hnonblank hpoint
  have hrespelled : ReflTransGen Respells "2.*".toList "2. ×".toList :=
    .tail (.single (.exchange ['2', '.'] [] (.inl (by decide))))
      (.insert ['2', '.'] ['×'] (by decide) (happart '×' (by decide)))
  refine ⟨htext, hrespelled, ?_⟩
  have hcalculate :
      (calculate "2.*").result = .error (.malformedLiteral ⟨['2'], some []⟩) := by
    apply result_calculate_of_fault
    rw [Expression.parse, Outcome.result_bind, result_tokenize, htext]
    rfl
  rcases (lex_part_by_part.2 _ _ hrespelled).2 with h | ⟨h, -⟩ | ⟨h, -⟩
  · exact h.trans hcalculate
  · exact absurd (h.symm.trans hcalculate) (by simp)
  · exact absurd (h.symm.trans hcalculate) (by simp)

end Calculator
