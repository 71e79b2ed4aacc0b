import Calculator.Proofs.Spelling
import Calculator.Token.Lexeme
import Mathlib.Data.List.SplitBy

namespace Calculator

open Calculator.Literal
open Calculator.Text

namespace Literal

theorem isPart_of_isDigit {c : Char} (h : c.isDigit) : isPart c := by
  rw [isPart, h, Bool.true_or]

theorem ne_point_of_isDigit {c : Char} (h : c.isDigit) : c ≠ '.' := by
  rintro rfl
  exact absurd h (by decide)

theorem Longest.of_append {literal : Literal} {more tail : List Char}
    (h : literal.Longest (more ++ tail)) : literal.Longest more :=
  ⟨h.whole, h.fraction, fun c hc => h.noDigit c (List.mem_head?_append_of_mem_head? hc),
    fun hnone c hc => h.noPoint hnone c (List.mem_head?_append_of_mem_head? hc)⟩

theorem isPart_of_mem_chars {literal : Literal} {rest : List Char}
    (h : literal.Longest rest) :
    ∀ c ∈ literal.chars, isPart c := by
  intro c hc
  unfold chars at hc
  split at hc
  · exact isPart_of_isDigit (h.whole c hc)
  · rename_i fraction hfraction
    rcases List.mem_append.mp hc with hc | hc
    · exact isPart_of_isDigit (h.whole c hc)
    · rcases List.mem_cons.mp hc with rfl | hc
      · decide
      · apply isPart_of_isDigit
        apply h.fraction c
        rwa [hfraction]

theorem eq_nil_or_point {literal : Literal} {more : List Char}
    (hlongest : literal.Longest more) (hmore : ∀ c ∈ more, isPart c) :
    more = [] ∨ (∃ fraction, literal.fraction? = some fraction) ∧
    ∃ rest, more = '.' :: rest := by
  rcases more with _ | ⟨c, rest⟩
  · exact .inl rfl
  · have hc : c = '.' := by
      have hpart := hmore c List.mem_cons_self
      have hnodigit := hlongest.noDigit c rfl
      simpa only [isPart, hnodigit, Bool.false_or, beq_iff_eq] using hpart
    subst hc
    rcases hfraction : literal.fraction? with _ | fraction
    · exact absurd rfl (hlongest.noPoint hfraction '.' rfl)
    · exact .inr ⟨⟨fraction, rfl⟩, rest, rfl⟩

theorem exists_parts_endsBefore (text : List Char) :
    ∃ more tail, text = more ++ tail ∧ (∀ c ∈ more, isPart c) ∧ endsBefore tail :=
  ⟨text.takeWhile isPart, text.dropWhile isPart, List.takeWhile_append_dropWhile.symm,
    fun _ => List.mem_takeWhile_imp, head?_dropWhile_eq_false isPart text⟩

end Literal

namespace Lexeme

section Cutting

theorem betweenPoints_append {digits rest part : List Char} {others : List (List Char)}
    (h : ∀ c ∈ digits, c.isDigit) (hrest : betweenPoints rest = part :: others) :
    betweenPoints (digits ++ rest) = (digits ++ part) :: others := by
  induction digits with
  | nil => exact hrest
  | cons c digits ih =>
      have hc := ne_point_of_isDigit (h c List.mem_cons_self)
      rw [List.cons_append, betweenPoints, if_neg hc,
        ih fun d hd => h d (List.mem_cons_of_mem c hd), List.cons_append]

theorem betweenPoints_digits {digits : List Char} (h : ∀ c ∈ digits, c.isDigit) :
    betweenPoints digits = [digits] := by
  have happend := betweenPoints_append h (rfl : betweenPoints [] = [[]])
  rwa [List.append_nil] at happend

theorem betweenPoints_point {digits : List Char} (h : ∀ c ∈ digits, c.isDigit)
    (rest : List Char) :
    betweenPoints (digits ++ '.' :: rest) = digits :: betweenPoints rest := by
  have happend := betweenPoints_append h
    (rfl : betweenPoints ('.' :: rest) = [] :: betweenPoints rest)
  rwa [List.append_nil] at happend

theorem betweenPoints_ne_nil (text : List Char) : betweenPoints text ≠ [] := by
  cases text with
  | nil => exact List.cons_ne_nil _ _
  | cons c rest =>
      rw [betweenPoints]
      split
      · exact List.cons_ne_nil _ _
      · split <;> exact List.cons_ne_nil _ _

/-- The first literal of a run is the longest in front of it, and the others are
those of what follows. -/
theorem literalsOfRun_append {literal : Literal} {more : List Char}
    (hlongest : literal.Longest more) (hmore : ∀ c ∈ more, isPart c) :
    literalsOfRun (literal.chars ++ more) =
      literal :: if more = [] then [] else literalsOfRun more := by
  obtain ⟨whole, fraction?⟩ := literal
  obtain ⟨hwhole, hfraction, -, -⟩ := id hlongest
  rcases eq_nil_or_point hlongest hmore with rfl | ⟨⟨fraction, rfl⟩, rest, rfl⟩
  · rw [List.append_nil, if_pos rfl]
    rcases fraction? with _ | fraction
    · simp only [chars, literalsOfRun, betweenPoints_digits hwhole]
    · change ∀ c ∈ fraction, c.isDigit at hfraction
      simp only [chars, literalsOfRun, betweenPoints_point hwhole,
        betweenPoints_digits hfraction, List.map_nil]
  · change ∀ c ∈ fraction, c.isDigit at hfraction
    obtain ⟨part, others, hparts⟩ :=
      List.exists_cons_of_ne_nil (betweenPoints_ne_nil rest)
    have hnext : betweenPoints ('.' :: rest) = [] :: betweenPoints rest := rfl
    rw [if_neg (List.cons_ne_nil _ _)]
    simp only [chars, List.append_assoc, List.cons_append, literalsOfRun,
      betweenPoints_point hwhole, betweenPoints_point hfraction, hnext, hparts, List.map_cons]

end Cutting

section Groups

theorem ofText_cons {c : Char} (h : isPart c = false) (rest : List Char) :
    ofText (c :: rest) = ofGroup [c] ++ ofText rest := by
  have happart : ∀ d ∈ [c].getLast?, ∀ e ∈ rest.head?, (isPart d && isPart e) =
      false := by
    rintro d hd e -
    obtain rfl : c = d := Option.some.inj hd
    rw [h, Bool.false_and]
  rw [ofText, ← List.singleton_append, List.splitBy_append happart, List.flatMap_append]
  exact congrArg (· ++ ofText rest) (List.append_nil (ofGroup [c]))

theorem ofText_run {run rest : List Char} (hne : run ≠ []) (hrun : ∀ c ∈ run, isPart c)
    (hrest : endsBefore rest) :
    ofText (run ++ rest) = (literalsOfRun run).map literal ++ ofText rest := by
  have hchain : run.IsChain fun c d => isPart c && isPart d := by
    apply List.Pairwise.isChain
    apply List.Pairwise.imp_of_mem (R := fun _ _ => True)
    · rintro c d hc hd -
      rw [hrun c hc, hrun d hd]
      rfl
    · exact List.pairwise_of_forall fun _ _ => trivial
  have happart : ∀ c ∈ run.getLast?, ∀ d ∈ rest.head?, (isPart c && isPart d) =
      false := by
    rintro c - d hd
    rw [hrest d hd, Bool.and_false]
  have hgroup : ofGroup run = (literalsOfRun run).map literal := by
    obtain ⟨c, others, rfl⟩ := List.exists_cons_of_ne_nil hne
    rw [ofGroup, if_pos (hrun c List.mem_cons_self)]
  rw [ofText, List.splitBy_append happart, List.splitBy_of_isChain hne hchain,
    List.flatMap_append, List.flatMap_singleton, hgroup, ofText]

end Groups

def chars : Lexeme → List Char
  | literal number => number.chars
  | sign c => [c]

/-- A lexeme that a text begins with: a literal that could not be longer, or a
character that is neither blank nor part of a literal. -/
inductive Leads : Lexeme → List Char → Prop
  | literal {number : Literal} {rest : List Char} (hne : number.chars ≠ [])
      (hlongest : number.Longest rest) : Leads (.literal number) rest
  | sign {c : Char} {rest : List Char} (hpart : isPart c = false)
      (hblank : isBlank c = false) : Leads (.sign c) rest

theorem Leads.of_append {lexeme : Lexeme} {more tail : List Char}
    (h : lexeme.Leads (more ++ tail)) : lexeme.Leads more := by
  cases h with
  | literal hne hlongest => exact .literal hne hlongest.of_append
  | sign hpart hblank => exact .sign hpart hblank

section Front

theorem isBlank_of_isPart {c : Char} (h : isPart c) : isBlank c = false := by
  rcases Bool.or_eq_true_iff.mp h with hdigit | hpoint
  · exact Lexer.isBlank_of_isDigit hdigit
  · rw [eq_of_beq hpoint]
    decide

theorem isPart_of_isBlank {c : Char} (h : isBlank c) : isPart c = false := by
  by_contra hpart
  rw [isBlank_of_isPart (by simpa using hpart)] at h
  contradiction

theorem ofText_blank {c : Char} (h : isBlank c) (rest : List Char) :
    ofText (c :: rest) = ofText rest := by
  have hpart := isPart_of_isBlank h
  rw [ofText_cons hpart, ofGroup, if_neg (by simp [hpart]), if_pos h, List.nil_append]

variable {lexeme : Lexeme} {rest : List Char}

theorem chars_ne_nil (h : lexeme.Leads rest) : lexeme.chars ≠ [] := by
  cases h with
  | literal hne hlongest => exact hne
  | sign hpart hblank => exact List.cons_ne_nil _ _

theorem isBlank_of_mem_chars (h : lexeme.Leads rest) :
    ∀ c ∈ lexeme.chars, isBlank c = false := by
  intro c hc
  cases h with
  | literal hne hlongest => exact isBlank_of_isPart (isPart_of_mem_chars hlongest c hc)
  | sign hpart hblank =>
      rw [List.mem_singleton.mp hc]
      exact hblank

theorem ofText_literal {number : Literal} (hne : number.chars ≠ [])
    (hlongest : number.Longest rest) :
    ofText (number.chars ++ rest) = literal number :: ofText rest := by
  obtain ⟨more, tail, rfl, hmore, htail⟩ := exists_parts_endsBefore rest
  have hlongest : number.Longest more := hlongest.of_append
  have hrun : ∀ d ∈ number.chars ++ more, isPart d := by
    intro d hd
    rcases List.mem_append.mp hd with hd | hd
    · exact isPart_of_mem_chars hlongest d hd
    · exact hmore d hd
  rw [← List.append_assoc,
    ofText_run (List.append_ne_nil_of_left_ne_nil hne more) hrun htail,
    literalsOfRun_append hlongest hmore]
  split
  · rename_i hnil
    rw [hnil, List.nil_append, List.map_singleton, List.singleton_append]
  · rename_i hcons
    rw [ofText_run hcons hmore htail, List.map_cons, List.cons_append]

theorem ofText_append (h : lexeme.Leads rest) :
    ofText (lexeme.chars ++ rest) = lexeme :: ofText rest := by
  cases h with
  | literal hne hlongest => exact ofText_literal hne hlongest
  | @sign c _ hpart hblank =>
      rw [chars, List.singleton_append, ofText_cons hpart, ofGroup,
        if_neg (by simp [hpart]), if_neg (by simp [hblank]), List.singleton_append]

theorem token_append (h : lexeme.Leads rest) : ∃ c others, lexeme.chars ++ rest =
    c :: others ∧
    isBlank c = false ∧ Lexer.token c others = (lexeme.token, rest) := by
  cases h with
  | @literal number _ hne hlongest =>
      obtain ⟨c, others, hchars⟩ := List.exists_cons_of_ne_nil hne
      have hpart := isPart_of_mem_chars hlongest c (hchars ▸ List.mem_cons_self)
      have hread := read_eq_iff.mpr ⟨rfl, hlongest⟩
      rw [hchars, List.cons_append] at hread
      refine ⟨c, others ++ rest, ?_, isBlank_of_isPart hpart, ?_⟩
      · rw [chars, hchars, List.cons_append]
      · rw [Lexer.token, if_pos hpart, hread]
        rfl
  | @sign c _ hpart hblank =>
      refine ⟨c, rest, rfl, hblank, ?_⟩
      rw [Lexer.token, if_neg (by simp [hpart])]
      rcases hsymbol : Token.ofSymbol? c with _ | symbol <;> simp only [token, hsymbol]

theorem tokens_append_of_ok {first : Token} (h : lexeme.Leads rest)
    (htoken : lexeme.token = .ok first) :
    Lexer.tokens (lexeme.chars ++ rest) =
      ((Lexer.tokens rest).1.map (first :: ·), (Lexer.tokens rest).2) := by
  obtain ⟨c, others, hchars, hblank, hread⟩ := token_append h
  rw [htoken] at hread
  rw [hchars, Lexer.tokens_of_token hblank hread]

theorem tokens_append_of_error {fault : Fault} (h : lexeme.Leads rest)
    (htoken : lexeme.token = .error fault) :
    Lexer.tokens (lexeme.chars ++ rest) = (.error fault, rest) := by
  obtain ⟨c, others, hchars, hblank, hread⟩ := token_append h
  rw [htoken] at hread
  rw [hchars, Lexer.tokens_of_fault hblank hread]

end Front

theorem induction_on_text {motive : List Char → Prop} (nil : motive [])
    (blank : ∀ c rest, isBlank c → motive rest → motive (c :: rest))
    (append : ∀ lexeme rest, Leads lexeme rest → motive rest → motive (lexeme.chars ++ rest))
    (text : List Char) : motive text := by
  induction hlength : text.length using Nat.strong_induction_on generalizing text with
  | _ n ih =>
      subst hlength
      rcases text with _ | ⟨c, rest⟩
      · exact nil
      · by_cases hpart : isPart c
        · obtain ⟨number, after, hread⟩ : ∃ number after, read (c :: rest) = (number,
            after) :=
            ⟨_, _, rfl⟩
          obtain ⟨htext, hlongest⟩ := read_eq_iff.mp hread
          have hshorter := Literal.length_rest_lt hpart hread
          have hne : number.chars ≠ [] := by
            intro hnil
            rw [hnil, List.nil_append] at htext
            rw [htext] at hshorter
            exact Nat.lt_irrefl _ hshorter
          rw [← htext]
          exact append (.literal number) after (.literal hne hlongest) (ih _ hshorter after rfl)
        · have hrest := ih _ (Nat.lt_succ_self _) rest rfl
          by_cases hblank : isBlank c
          · exact blank c rest hblank hrest
          · exact append (.sign c) rest
              (.sign (by simpa using hpart) (by simpa using hblank)) hrest

theorem tokens_eq_mapM (text : List Char) :
    (Lexer.tokens text).1 = (ofText text).mapM token := by
  induction text using induction_on_text with
  | nil =>
      rw [Lexer.tokens]
      rfl
  | blank c rest hblank ih => rw [Lexer.tokens_blank hblank, ofText_blank hblank, ih]
  | append lexeme rest hleads ih =>
      rw [ofText_append hleads, List.mapM_cons]
      rcases htoken : lexeme.token with fault | first
      · rw [tokens_append_of_error hleads htoken]
        rfl
      · rw [tokens_append_of_ok hleads htoken, ih]
        rcases (ofText rest).mapM token with fault | others <;> rfl

/-- The lexemes of a text are all of it but its blanks. -/
theorem flatMap_chars_ofText (text : List Char) :
    (ofText text).flatMap chars = text.filter fun c => !isBlank c := by
  induction text using induction_on_text with
  | nil => rfl
  | blank c rest hblank ih =>
      rw [ofText_blank hblank, List.filter_cons_of_neg (by simp [hblank]), ih]
  | append lexeme rest hleads ih =>
      have hkept : (lexeme.chars.filter fun c => !isBlank c) = lexeme.chars := by
        rw [List.filter_eq_self]
        intro c hc
        rw [isBlank_of_mem_chars hleads c hc]
        rfl
      rw [ofText_append hleads, List.flatMap_cons, List.filter_append, ih, hkept]

theorem exists_leads_of_mem_ofText {text : List Char} {lexeme : Lexeme}
    (h : lexeme ∈ ofText text) : ∃ rest, lexeme.Leads rest := by
  induction text using induction_on_text with
  | nil => exact absurd h List.not_mem_nil
  | blank c rest hblank ih =>
      rw [ofText_blank hblank] at h
      exact ih h
  | append first rest hleads ih =>
      rw [ofText_append hleads] at h
      rcases List.mem_cons.mp h with rfl | h
      · exact ⟨rest, hleads⟩
      · exact ih h

theorem ofText_eq_nil_iff {text : List Char} : ofText text = [] ↔
    ∀ c ∈ text, isBlank c := by
  have hchars := flatMap_chars_ofText text
  constructor
  · intro hnil
    rw [hnil, List.flatMap_nil, eq_comm, List.filter_eq_nil_iff] at hchars
    intro c hc
    simpa using hchars c hc
  · intro hblank
    rw [List.filter_eq_nil_iff.mpr fun c hc => by simp [hblank c hc],
      List.flatMap_eq_nil_iff] at hchars
    apply List.eq_nil_iff_forall_not_mem.mpr
    intro lexeme hlexeme
    obtain ⟨rest, hleads⟩ := exists_leads_of_mem_ofText hlexeme
    exact chars_ne_nil hleads (hchars lexeme hlexeme)

end Lexeme

end Calculator
