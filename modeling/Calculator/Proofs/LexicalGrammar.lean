import Calculator.Proofs.CorrectRounding
import Calculator.Proofs.Lexemes
import Calculator.Proofs.RoundTrip

/-!
The texts that the lexer accepts, and what it makes of them.

A text is lexical if it is not blank, if it has no characters but blanks, digits,
points and signs, if a digit follows every point, and if no literal is too large.
The lexer makes one token of each lexeme of such a text; of any other text that is
not blank it tells the first lexeme that offends.
-/

namespace Calculator

open Calculator.Binary64
open Calculator.Literal
open Calculator.Text
open List (Forall₂)

section OneByOne

variable {α β ε : Type} {f : α → Except ε β} {xs : List α}

theorem mapM_eq_ok_iff {ys : List β} :
    xs.mapM f = .ok ys ↔ Forall₂ (fun x y => f x = .ok y) xs ys := by
  induction xs generalizing ys with
  | nil =>
      constructor
      · rintro ⟨⟩
        exact .nil
      · rintro ⟨⟩
        rfl
  | cons x xs ih =>
      rw [List.mapM_cons]
      constructor
      · intro h
        rcases hx : f x with fault | y
        · rw [hx] at h
          contradiction
        · rcases hxs : xs.mapM f with fault | others
          · rw [hx, hxs] at h
            contradiction
          · rw [hx, hxs] at h
            cases h
            exact .cons hx (ih.mp hxs)
      · rintro (_ | ⟨hx, hxs⟩)
        rw [hx, ih.mpr hxs]
        rfl

theorem mapM_eq_error_iff {fault : ε} :
    xs.mapM f = .error fault ↔ ∃ front x behind, xs = front ++ x :: behind ∧
      (∀ other ∈ front, ∃ y, f other = .ok y) ∧ f x = .error fault := by
  induction xs with
  | nil =>
      constructor
      · rintro ⟨⟩
      · rintro ⟨front, x, behind, hsplit, -, -⟩
        exact absurd hsplit.symm (List.append_ne_nil_of_right_ne_nil _ (List.cons_ne_nil _ _))
  | cons x xs ih =>
      rw [List.mapM_cons]
      constructor
      · intro h
        rcases hx : f x with found | y
        · rw [hx] at h
          cases h
          exact ⟨[], x, xs, rfl, nofun, hx⟩
        · rcases hxs : xs.mapM f with found | others
          · rw [hx, hxs] at h
            cases h
            obtain ⟨front, z, behind, rfl, hfront, hz⟩ := ih.mp hxs
            refine ⟨x :: front, z, behind, rfl, ?_, hz⟩
            rintro other (_ | ⟨_, hother⟩)
            · exact ⟨y, hx⟩
            · exact hfront other hother
          · rw [hx, hxs] at h
            contradiction
      · rintro ⟨front, z, behind, hsplit, hfront, hz⟩
        rcases front with _ | ⟨first, front⟩
        · obtain ⟨rfl, rfl⟩ := List.cons.inj hsplit
          rw [hz]
          rfl
        · obtain ⟨rfl, rfl⟩ := List.cons.inj hsplit
          obtain ⟨y, hx⟩ := hfront x List.mem_cons_self
          have hxs := ih.mpr ⟨front, z, behind, rfl,
            fun other hother => hfront other (List.mem_cons_of_mem x hother), hz⟩
          rw [hx, hxs]
          rfl

theorem exists_forall₂_iff {R : α → β → Prop} :
    (∃ ys, Forall₂ R xs ys) ↔ ∀ x ∈ xs, ∃ y, R x y := by
  induction xs with
  | nil => exact iff_of_true ⟨[], .nil⟩ nofun
  | cons x xs ih =>
      rw [List.forall_mem_cons, ← ih]
      constructor
      · rintro ⟨_, _ | ⟨hx, hxs⟩⟩
        exact ⟨⟨_, hx⟩, _, hxs⟩
      · rintro ⟨⟨y, hx⟩, ys, hxs⟩
        exact ⟨y :: ys, .cons hx hxs⟩

end OneByOne

/-- The characters that are tokens of their own. -/
def Token.signs : List Char :=
  ['+', '-', '−', '*', '×', '/', '÷', '^', '√', '(', ')']

theorem Token.ofSymbol?_eq_none_iff {c : Char} : ofSymbol? c = none ↔ c ∉ signs := by
  constructor
  · rintro hnone hsign
    simp only [signs, List.mem_cons, List.not_mem_nil, or_false] at hsign
    rcases hsign with rfl | rfl | rfl | rfl | rfl | rfl | rfl | rfl | rfl | rfl | rfl <;>
      contradiction
  · intro h
    unfold ofSymbol?
    split
    all_goals first | rfl | exact absurd (by decide +revert) h

/-- The tokens with a sign of their own. -/
def Token.table : List (Char × Token) :=
  [('+', .operator (.binary .add)), ('-', .operator (.binary .sub)),
    ('−', .operator (.binary .sub)), ('*', .operator (.binary .mul)),
    ('×', .operator (.binary .mul)), ('/', .operator (.binary .div)),
    ('÷', .operator (.binary .div)), ('^', .operator (.binary .pow)), ('√', .operator .root),
    ('(', .opening), (')', .closing)]

theorem Token.ofSymbol?_eq_some_iff {c : Char} {symbol : Token} :
    ofSymbol? c = some symbol ↔ (c, symbol) ∈ table := by
  constructor
  · intro h
    unfold ofSymbol? at h
    split at h
    all_goals first | contradiction | (obtain rfl := Option.some.inj h; simp [table])
  · intro h
    simp only [table, List.mem_cons, Prod.mk.injEq, List.not_mem_nil, or_false] at h
    rcases h with ⟨rfl, rfl⟩ | ⟨rfl, rfl⟩ | ⟨rfl, rfl⟩ | ⟨rfl, rfl⟩ | ⟨rfl, rfl⟩ | ⟨rfl, rfl⟩ |
      ⟨rfl, rfl⟩ | ⟨rfl, rfl⟩ | ⟨rfl, rfl⟩ | ⟨rfl, rfl⟩ | ⟨rfl, rfl⟩
    all_goals rfl

namespace Literal

/-- All digits of a literal, read as one number. -/
def numerator (number : Literal) : Nat :=
  Nat.ofDigitChars 10 (number.whole ++ number.fraction?.getD []) 0

/-- A literal stands for its numerator divided by a power of ten, one for each
digit behind its point. -/
def denominator (number : Literal) : Nat :=
  10 ^ (number.fraction?.getD []).length

theorem coefficient_decimal (number : Literal) :
    number.decimal.coefficient = number.numerator := rfl

theorem pow_places_decimal (number : Literal) :
    10 ^ number.decimal.places = number.denominator := rfl

theorem isFinite_toFloat_iff (number : Literal) :
    number.decimal.toFloat.isFinite ↔
      ¬ Overflows number.numerator number.denominator := by
  rw [Decimal.isFinite_toFloat_iff, coefficient_decimal, pow_places_decimal]

theorem nearestTo_iff {number : Literal}
    (h : ¬ Overflows number.numerator number.denominator) {x : Float} :
    NearestTo number.numerator number.denominator x ↔ x = number.decimal.toFloat := by
  rw [← coefficient_decimal, ← pow_places_decimal] at h ⊢
  exact Decimal.nearestTo_iff h

end Literal

namespace Lexeme

/-- A literal is read as the double nearest to its value, and a sign as its token. -/
inductive Reads : Lexeme → Token → Prop
  | literal {number : Literal} {x : Float} (hpoint : number.endsInPoint = false)
      (hsize : ¬ Overflows number.numerator number.denominator)
      (hnearest : NearestTo number.numerator number.denominator x) :
      Reads (.literal number) (.number x)
  | sign {c : Char} {symbol : Token} (h : (c, symbol) ∈ Token.table) : Reads (.sign c) symbol

/-- Why a lexeme is no token: an unknown character, a literal that ends in its
point, or one that is beyond all doubles. -/
inductive Offends : Lexeme → Fault → Prop
  | character {c : Char} (h : c ∉ Token.signs) : Offends (.sign c) (.unexpectedCharacter c)
  | point {number : Literal} (h : number.endsInPoint) :
      Offends (.literal number) (.malformedLiteral number)
  | size {number : Literal} (hpoint : number.endsInPoint = false)
      (hsize : Overflows number.numerator number.denominator) :
      Offends (.literal number) (.literalTooLarge number)

/-- The text that tells of a lexeme that is no token. -/
inductive Told : Lexeme → String → Prop
  | character {c : Char} (h : c ∉ Token.signs) :
      Told (.sign c) ("unexpected character in input: " ++ String.singleton c)
  | point {number : Literal} (h : number.endsInPoint) :
      Told (.literal number) ("invalid number " ++ String.ofList number.chars)
  | size {number : Literal} (hpoint : number.endsInPoint = false)
      (hsize : Overflows number.numerator number.denominator) :
      Told (.literal number) ("number too large: " ++ String.ofList number.chars)

theorem Offends.told {lexeme : Lexeme} {fault : Fault} (h : lexeme.Offends fault) :
    lexeme.Told fault.detail := by
  cases h with
  | character hsign => exact .character hsign
  | point hpoint => exact .point hpoint
  | size hpoint hsize => exact .size hpoint hsize

theorem Offends.kind {lexeme : Lexeme} {fault : Fault} (h : lexeme.Offends fault) :
    fault.kind = .invalidExpression := by
  cases h <;> rfl

theorem token_eq_ok_iff {lexeme : Lexeme} {t : Token} : lexeme.token = .ok t ↔
    lexeme.Reads t := by
  constructor
  · intro h
    rcases lexeme with number | c
    · simp only [token, Lexer.number] at h
      split at h
      · contradiction
      · rename_i hpoint
        split at h
        · rename_i hfinite
          cases h
          have hsize := number.isFinite_toFloat_iff.mp hfinite
          exact .literal (by simpa using hpoint) hsize ((nearestTo_iff hsize).mpr rfl)
        · contradiction
    · simp only [token] at h
      split at h
      · rename_i symbol hsymbol
        cases h
        exact .sign (Token.ofSymbol?_eq_some_iff.mp hsymbol)
      · contradiction
  · rintro (⟨hpoint, hsize, hnearest⟩ | hsymbol)
    · obtain rfl := (nearestTo_iff hsize).mp hnearest
      rw [token, Lexer.number, if_neg (by simp [hpoint]),
        if_pos ((isFinite_toFloat_iff _).mpr hsize)]
    · simp only [token, Token.ofSymbol?_eq_some_iff.mpr hsymbol]

theorem token_eq_error_iff {lexeme : Lexeme} {fault : Fault} :
    lexeme.token = .error fault ↔ lexeme.Offends fault := by
  constructor
  · intro h
    rcases lexeme with number | c
    · simp only [token, Lexer.number] at h
      split at h
      · rename_i hpoint
        cases h
        exact .point hpoint
      · rename_i hpoint
        split at h
        · contradiction
        · rename_i hinfinite
          cases h
          refine .size (by simpa using hpoint) ?_
          rwa [number.isFinite_toFloat_iff, not_not] at hinfinite
    · simp only [token] at h
      split at h
      · contradiction
      · rename_i hnone
        cases h
        exact .character (Token.ofSymbol?_eq_none_iff.mp hnone)
  · rintro (hsign | hpoint | ⟨hpoint, hsize⟩)
    · simp only [token, Token.ofSymbol?_eq_none_iff.mpr hsign]
    · rw [token, Lexer.number, if_pos hpoint]
    · rw [token, Lexer.number, if_neg (by simp [hpoint]), if_neg]
      rwa [isFinite_toFloat_iff, not_not]

theorem characters_iff {text : List Char} :
    (∀ c ∈ text, isBlank c ∨ c.isDigit ∨ c = '.' ∨ c ∈ Token.signs) ↔
      ∀ c, sign c ∈ ofText text → c ∈ Token.signs := by
  have hmem :
      ∀ {c}, c ∈ (ofText text).flatMap chars ↔ c ∈ text ∧ isBlank c = false := by
    intro c
    rw [flatMap_chars_ofText, List.mem_filter, Bool.not_eq_true']
  constructor
  · intro h c hc
    obtain ⟨rest, _ | ⟨hpart, hblank⟩⟩ := exists_leads_of_mem_ofText hc
    have htext := (hmem.mp (List.mem_flatMap.mpr ⟨sign c, hc, List.mem_singleton_self c⟩)).1
    rcases h c htext with hc | hc | rfl | hc
    · rw [hblank] at hc
      contradiction
    · rw [isPart_of_isDigit hc] at hpart
      contradiction
    · exact absurd hpart (by decide)
    · exact hc
  · intro h c hc
    by_cases hblank : isBlank c
    · exact .inl hblank
    · obtain ⟨lexeme, hlexeme, hc⟩ :=
        List.mem_flatMap.mp (hmem.mpr ⟨hc, by simpa using hblank⟩)
      obtain ⟨rest, ⟨-, hlongest⟩ | -⟩ := exists_leads_of_mem_ofText hlexeme
      · rcases Bool.or_eq_true_iff.mp (isPart_of_mem_chars hlongest c hc) with hdigit | hpoint
        · exact .inr (.inl hdigit)
        · exact .inr (.inr (.inl (eq_of_beq hpoint)))
      · rw [chars, List.mem_singleton] at hc
        subst hc
        exact .inr (.inr (.inr (h c hlexeme)))

end Lexeme

section Points

def PointsFollowed (text : List Char) : Prop :=
  ∀ before after, text = before ++ '.' :: after → ∃ c ∈ after.head?, c.isDigit

theorem pointsFollowed_cons_iff {c : Char} {rest : List Char} :
    PointsFollowed (c :: rest) ↔
      (c = '.' → ∃ d ∈ rest.head?, d.isDigit) ∧ PointsFollowed rest := by
  constructor
  · intro h
    refine ⟨?_, ?_⟩
    · rintro rfl
      exact h [] rest rfl
    · rintro before after rfl
      exact h (c :: before) after rfl
  · rintro ⟨hc, hrest⟩ before after hsplit
    rcases before with _ | ⟨d, before⟩
    · obtain ⟨rfl, rfl⟩ := List.cons.inj hsplit
      exact hc rfl
    · obtain ⟨rfl, rfl⟩ := List.cons.inj hsplit
      exact hrest before after rfl

theorem pointsFollowed_append_iff {digits rest : List Char}
    (h : ∀ c ∈ digits, c.isDigit) :
    PointsFollowed (digits ++ rest) ↔ PointsFollowed rest := by
  induction digits with
  | nil => rfl
  | cons c digits ih =>
      have hc := ne_point_of_isDigit (h c List.mem_cons_self)
      rw [List.cons_append, pointsFollowed_cons_iff,
        ih fun d hd => h d (List.mem_cons_of_mem c hd)]
      exact and_iff_right fun hpoint => absurd hpoint hc

theorem pointsFollowed_chars_append_iff {number : Literal} {rest : List Char}
    (h : number.Longest rest) :
    PointsFollowed (number.chars ++ rest) ↔
      number.endsInPoint = false ∧ PointsFollowed rest := by
  obtain ⟨hwhole, hfraction, hnodigit, -⟩ := h
  obtain ⟨whole, _ | fraction⟩ := number
  · rw [chars, pointsFollowed_append_iff hwhole]
    exact (and_iff_right rfl).symm
  · change ∀ c ∈ fraction, c.isDigit at hfraction
    rw [chars, List.append_assoc, pointsFollowed_append_iff hwhole, List.cons_append,
      pointsFollowed_cons_iff, pointsFollowed_append_iff hfraction]
    refine and_congr_left fun _ => ?_
    -- What follows the point is the fraction, or no digit if the fraction is empty.
    rcases fraction with _ | ⟨c, others⟩
    · have hends : endsInPoint ⟨whole, some []⟩ = true := rfl
      refine iff_of_false ?_ (by simp [hends])
      intro hpoint
      obtain ⟨c, hc, hdigit⟩ := hpoint rfl
      exact absurd hdigit (by simp [hnodigit c hc])
    · have hends : endsInPoint ⟨whole, some (c :: others)⟩ =
          false := by simp [endsInPoint]
      refine iff_of_true ?_ hends
      rintro -
      exact ⟨c, Option.mem_some_self c, hfraction c List.mem_cons_self⟩

theorem pointsFollowed_iff {text : List Char} :
    PointsFollowed text ↔
      ∀ number, .literal number ∈ Lexeme.ofText text → number.endsInPoint = false := by
  induction text using Lexeme.induction_on_text with
  | nil => exact iff_of_true (fun before after => by simp) nofun
  | blank c rest hblank ih =>
      have hc : c ≠ '.' := by
        rintro rfl
        exact absurd hblank (by decide)
      rw [pointsFollowed_cons_iff, Lexeme.ofText_blank hblank, ih]
      exact and_iff_right fun hpoint => absurd hpoint hc
  | append lexeme rest hleads ih =>
      rw [Lexeme.ofText_append hleads]
      cases hleads with
      | literal hne hlongest =>
          rw [Lexeme.chars, pointsFollowed_chars_append_iff hlongest, ih]
          simp
      | @sign c _ hpart hblank =>
          have hc : c ≠ '.' := by
            rintro rfl
            exact absurd hpart (by decide)
          rw [Lexeme.chars, List.singleton_append, pointsFollowed_cons_iff, ih]
          simp [hc]

end Points

/-- What the text of a token sequence looks like. -/
structure Lexical (text : List Char) : Prop where
  nonblank : ∃ c ∈ text, ¬ isBlank c
  characters : ∀ c ∈ text, isBlank c ∨ c.isDigit ∨ c = '.' ∨ c ∈ Token.signs
  points : PointsFollowed text
  sizes : ∀ number, .literal number ∈ Lexeme.ofText text →
    ¬ Overflows number.numerator number.denominator

theorem lexical_iff {text : List Char} :
    Lexical text ↔ Lexeme.ofText text ≠ [] ∧
      ∀ lexeme ∈ Lexeme.ofText text, ∃ token, lexeme.Reads token := by
  have hblank : (∃ c ∈ text, ¬ isBlank c) ↔ Lexeme.ofText text ≠ [] := by
    rw [ne_eq, Lexeme.ofText_eq_nil_iff]
    push Not
    rfl
  constructor
  · rintro ⟨hnonblank, hcharacters, hpoints, hsizes⟩
    refine ⟨hblank.mp hnonblank, ?_⟩
    rintro (number | c) hlexeme
    · have hsize := hsizes number hlexeme
      exact ⟨_, .literal (pointsFollowed_iff.mp hpoints number hlexeme) hsize
        ((nearestTo_iff hsize).mpr rfl)⟩
    · have hsign := Lexeme.characters_iff.mp hcharacters c hlexeme
      rw [← not_not (a := c ∈ Token.signs), ← Token.ofSymbol?_eq_none_iff, ← ne_eq,
        Option.ne_none_iff_exists'] at hsign
      obtain ⟨symbol, hsymbol⟩ := hsign
      exact ⟨symbol, .sign (Token.ofSymbol?_eq_some_iff.mp hsymbol)⟩
  · rintro ⟨hne, hreads⟩
    refine ⟨hblank.mpr hne, Lexeme.characters_iff.mpr ?_, pointsFollowed_iff.mpr ?_, ?_⟩
    · intro c hc
      obtain ⟨symbol, hsymbol | hsymbol⟩ := hreads _ hc
      by_contra hsign
      rw [← Token.ofSymbol?_eq_some_iff,
        Token.ofSymbol?_eq_none_iff.mpr hsign] at hsymbol
      contradiction
    · intro number hnumber
      obtain ⟨token, hpoint | -⟩ := hreads _ hnumber
      exact hpoint
    · intro number hnumber
      obtain ⟨token, hpoint | -⟩ := hreads _ hnumber
      assumption

namespace Lexer

theorem lex_eq_tokens {text : List Char} (h : Lexeme.ofText text ≠ []) :
    (lex text).1 = (tokens text).1 := by
  unfold lex
  split
  · rename_i behind hempty
    have hmap := Lexeme.tokens_eq_mapM text
    rw [hempty, eq_comm, mapM_eq_ok_iff, List.forall₂_nil_right_iff] at hmap
    contradiction
  · rfl

theorem lex_of_blank {text : List Char} (h : ∀ c ∈ text, isBlank c) :
    (lex text).1 = .error .emptyExpression := by
  have hmap := Lexeme.tokens_eq_mapM text
  rw [Lexeme.ofText_eq_nil_iff.mpr h] at hmap
  unfold lex
  split
  · rfl
  · rename_i hother
    exact (hother (tokens text).2 (Prod.ext hmap rfl)).elim

end Lexer

/-- The leftmost lexeme of a text that is no token has a property. -/
def FirstRejected (text : List Char) (property : Lexeme → Prop) : Prop :=
  ∃ front lexeme behind, Lexeme.ofText text = front ++ lexeme :: behind ∧
    (∀ other ∈ front, ∃ token, other.Reads token) ∧ property lexeme

theorem Lexer.tokens_eq_ok_iff {text : List Char} {sequence : List Token} :
    (tokens text).1 = .ok sequence ↔
      Forall₂ Lexeme.Reads (Lexeme.ofText text) sequence := by
  rw [Lexeme.tokens_eq_mapM, mapM_eq_ok_iff]
  simp only [Lexeme.token_eq_ok_iff]

theorem Lexer.tokens_eq_error_iff {text : List Char} {fault : Fault} :
    (tokens text).1 = .error fault ↔
      FirstRejected text fun lexeme => lexeme.Offends fault := by
  rw [Lexeme.tokens_eq_mapM, mapM_eq_error_iff]
  simp only [Lexeme.token_eq_ok_iff, Lexeme.token_eq_error_iff]
  rfl

theorem Lexer.lex_eq_ok_iff {text : List Char} {sequence : List Token} :
    (lex text).1 = .ok sequence ↔
      Lexeme.ofText text ≠ [] ∧ Forall₂ Lexeme.Reads (Lexeme.ofText text) sequence := by
  by_cases hnil : Lexeme.ofText text = []
  · rw [lex_of_blank (Lexeme.ofText_eq_nil_iff.mp hnil)]
    exact iff_of_false (by rintro ⟨⟩) fun h => h.1 hnil
  · rw [lex_eq_tokens hnil, tokens_eq_ok_iff, and_iff_right hnil]

theorem Lexer.lex_eq_error_iff {text : List Char} {fault : Fault} :
    (lex text).1 = .error fault ↔
      (fault = .emptyExpression ∧ ∀ c ∈ text, isBlank c) ∨
        FirstRejected text fun lexeme => lexeme.Offends fault := by
  by_cases hnil : Lexeme.ofText text = []
  · have hblank := Lexeme.ofText_eq_nil_iff.mp hnil
    rw [lex_of_blank hblank]
    constructor
    · rintro ⟨⟩
      exact .inl ⟨rfl, hblank⟩
    · rintro (⟨rfl, -⟩ | ⟨front, lexeme, behind, hsplit, -⟩)
      · rfl
      · rw [hnil] at hsplit
        simp at hsplit
  · rw [lex_eq_tokens hnil, tokens_eq_error_iff]
    refine (or_iff_right ?_).symm
    rintro ⟨-, hall⟩
    exact hnil (Lexeme.ofText_eq_nil_iff.mpr hall)

/-- The lexer accepts the lexical texts. It makes one token of each lexeme, in the order
of the text, and all numbers are finite and without a sign. Any other text is blank, or
the fault is that of its leftmost lexeme that is no token, and tells of it. -/
theorem lex_accepts_lexical (text : List Char) :
    ((∃ sequence, (Lexer.lex text).1 = .ok sequence) ↔ Lexical text) ∧
    (∀ sequence, (Lexer.lex text).1 = .ok sequence →
      Forall₂ Lexeme.Reads (Lexeme.ofText text) sequence ∧
      ∀ x, .number x ∈ sequence → x.isFinite ∧ Binary64.isNegative x = false) ∧
    (∀ fault, (Lexer.lex text).1 = .error fault ↔
      (fault = .emptyExpression ∧ ∀ c ∈ text, isBlank c) ∨
        FirstRejected text fun lexeme => lexeme.Offends fault) ∧
    (∀ fault, (Lexer.lex text).1 = .error fault →
      fault.kind = .invalidExpression ∧
        (fault.detail = "empty expression" ∧ (∀ c ∈ text, isBlank c) ∨
          FirstRejected text fun lexeme => lexeme.Told fault.detail)) ∧
    (Lexeme.ofText text).flatMap Lexeme.chars = text.filter fun c => !isBlank c := by
  refine ⟨?_, ?_, fun fault => Lexer.lex_eq_error_iff, ?_,
    Lexeme.flatMap_chars_ofText text⟩
  · rw [lexical_iff, ← exists_forall₂_iff, ← exists_and_left]
    exact exists_congr fun sequence => Lexer.lex_eq_ok_iff
  · intro sequence h
    obtain ⟨hnil, hreads⟩ := Lexer.lex_eq_ok_iff.mp h
    rw [Lexer.lex_eq_tokens hnil] at h
    exact ⟨hreads, Lexer.unsigned_of_tokens h⟩
  · intro fault h
    rcases Lexer.lex_eq_error_iff.mp h with
      ⟨rfl, hblank⟩ | ⟨front, lexeme, behind, hsplit, hfront, hoffends⟩
    · exact ⟨rfl, .inl ⟨rfl, hblank⟩⟩
    · exact ⟨hoffends.kind, .inr ⟨front, lexeme, behind, hsplit, hfront, hoffends.told⟩⟩

/-- Points cut `1.2.3` in two, a point without digits and an unknown character are
no tokens, and four hundred nines are too large. -/
theorem lex_accepts_lexical_points :
    (Lexer.lex "√1.2.3".toList).1 = .ok [.operator .root, .number 1.2, .number 0.3] ∧
      ((Lexer.lex "2.3.+$".toList).1 = .error (.malformedLiteral ⟨[], some []⟩) ∧
        (Fault.malformedLiteral ⟨[], some []⟩).detail = "invalid number .") ∧
      ((Lexer.lex "2 $.".toList).1 = .error (.unexpectedCharacter '$') ∧
        (Fault.unexpectedCharacter '$').detail = "unexpected character in input: $") ∧
      ((Lexer.lex (List.replicate 400 '9')).1 =
          .error (.literalTooLarge ⟨List.replicate 400 '9', none⟩) ∧
        (Fault.literalTooLarge ⟨List.replicate 400 '9', none⟩).detail =
          "number too large: " ++ String.ofList (List.replicate 400 '9')) ∧
      (Lexer.lex [' ']).1 = .error .emptyExpression ∧
        Fault.emptyExpression.detail = "empty expression" := by
  have hread {number : Literal} {x : Float} (hpoint : number.endsInPoint = false)
      (hsize : ¬ Overflows number.numerator number.denominator)
      (hvalue : x = number.decimal.toFloat) : (Lexeme.literal number).Reads (.number x) :=
    .literal hpoint hsize ((nearestTo_iff hsize).mpr hvalue)
  have hreject {text : List Char} {fault : Fault}
      (h : FirstRejected text fun lexeme => lexeme.Offends fault) :
      (Lexer.lex text).1 = .error fault :=
    ((lex_accepts_lexical text).2.2.1 fault).mpr (.inr h)
  have hlexemes : Lexeme.ofText "√1.2.3".toList =
      [.sign '√', .literal ⟨['1'], some ['2']⟩, .literal ⟨[], some ['3']⟩] := by
    rfl
  have hpoint : Lexeme.ofText "2.3.+$".toList =
      [.literal ⟨['2'], some ['3']⟩, .literal ⟨[], some []⟩, .sign '+', .sign '$'] := by
    rfl
  have hcharacter : Lexeme.ofText "2 $.".toList =
      [.literal ⟨['2'], none⟩, .sign '$', .literal ⟨[], some []⟩] := by
    rfl
  have hnines (count : Nat) : Lexeme.ofText (List.replicate (count + 1) '9') =
      [.literal ⟨List.replicate (count + 1) '9', none⟩] := by
    have hlongest : Longest ⟨List.replicate (count + 1) '9', none⟩ [] := by
      refine ⟨?_, by rintro _ ⟨⟩, by rintro _ ⟨⟩, by rintro - _ ⟨⟩⟩
      intro c hc
      rw [List.eq_of_mem_replicate hc]
      decide
    have hne : chars ⟨List.replicate (count + 1) '9', none⟩ ≠ [] := List.cons_ne_nil _ _
    have hcut := Lexeme.ofText_literal hne hlongest
    rwa [chars, List.append_nil] at hcut
  have hsize : Overflows (numerator ⟨List.replicate 400 '9', none⟩)
      (denominator ⟨List.replicate 400 '9', none⟩) := by
    decide +kernel
  refine ⟨?_, ⟨hreject ?_, rfl⟩, ⟨hreject ?_, rfl⟩, ⟨hreject ?_, rfl⟩, ?_, rfl⟩
  · have hreads : Forall₂ Lexeme.Reads (Lexeme.ofText "√1.2.3".toList)
        [.operator .root, .number 1.2, .number 0.3] := by
      rw [hlexemes]
      exact .cons (.sign (by simp [Token.table])) (.cons (hread rfl (by decide +kernel)
        (by decide +kernel)) (.cons (hread rfl (by decide +kernel) (by decide +kernel)) .nil))
    have hlexical : Lexical "√1.2.3".toList := by
      refine lexical_iff.mpr ⟨by rw [hlexemes]; exact List.cons_ne_nil _ _, ?_⟩
      exact exists_forall₂_iff.mp ⟨_, hreads⟩
    obtain ⟨sequence, hsequence⟩ := (lex_accepts_lexical _).1.mpr hlexical
    have hother := ((lex_accepts_lexical _).2.1 sequence hsequence).1
    rw [← Lexer.tokens_eq_ok_iff] at hother hreads
    rwa [← Except.ok.inj (hother.symm.trans hreads)]
  · refine ⟨_, _, _, hpoint.trans (List.singleton_append).symm, ?_, .point rfl⟩
    rintro other (_ | ⟨_, ⟨⟩⟩)
    exact ⟨_, hread rfl (by decide +kernel) rfl⟩
  · refine ⟨[_], _, _, hcharacter, ?_, .character (by decide)⟩
    rintro other (_ | ⟨_, ⟨⟩⟩)
    exact ⟨_, hread rfl (by decide +kernel) rfl⟩
  · exact ⟨[], _, [], hnines 399, by rintro _ ⟨⟩, .size rfl hsize⟩
  · refine ((lex_accepts_lexical [' ']).2.2.1 _).mpr (.inl ⟨rfl, ?_⟩)
    rintro c (_ | ⟨_, ⟨⟩⟩)
    decide

end Calculator
