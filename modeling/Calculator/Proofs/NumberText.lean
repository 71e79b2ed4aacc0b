import Calculator.Decimal.Shortest
import Calculator.Proofs.DoubleBits
import Calculator.Token.Lexer

namespace Calculator.Literal

open Calculator.Binary64

/-- Whether a literal that stands in front of a text is over where the text begins. -/
def endsBefore (rest : List Char) : Prop :=
  ∀ c ∈ rest.head?, isPart c = false

theorem isDigit_eq_false_of_isPart {c : Char} (h : isPart c = false) :
    c.isDigit = false := by
  simp only [isPart, Bool.or_eq_false_iff] at h
  exact h.1

theorem takeWhile_isDigit_append {digits rest : List Char}
    (hdigits : ∀ c ∈ digits, c.isDigit) (hrest : ∀ c ∈ rest.head?, c.isDigit = false) :
    (digits ++ rest).takeWhile Char.isDigit = digits := by
  rw [List.takeWhile_append_of_pos hdigits]
  rcases rest with _ | ⟨c, rest⟩
  · exact List.append_nil digits
  · rw [List.takeWhile_cons_of_neg (by simp [hrest c rfl]), List.append_nil]

theorem dropWhile_isDigit_append {digits rest : List Char}
    (hdigits : ∀ c ∈ digits, c.isDigit) (hrest : ∀ c ∈ rest.head?, c.isDigit = false) :
    (digits ++ rest).dropWhile Char.isDigit = rest := by
  rw [List.dropWhile_append_of_pos hdigits]
  rcases rest with _ | ⟨c, rest⟩
  · rfl
  · rw [List.dropWhile_cons_of_neg (by simp [hrest c rfl])]

/-- A literal made of digits is all that can be read in front of a text. -/
structure Longest (literal : Literal) (rest : List Char) : Prop where
  whole : ∀ c ∈ literal.whole, c.isDigit
  fraction : ∀ c ∈ literal.fraction?.getD [], c.isDigit
  noDigit : ∀ c ∈ rest.head?, c.isDigit = false
  noPoint : literal.fraction? = none → ∀ c ∈ rest.head?, c ≠ '.'

theorem longest_of_endsBefore {literal : Literal} {rest : List Char}
    (hwhole : ∀ c ∈ literal.whole, c.isDigit)
    (hfraction : ∀ c ∈ literal.fraction?.getD [], c.isDigit) (hrest : endsBefore rest) :
    literal.Longest rest := by
  refine ⟨hwhole, hfraction, ?_, ?_⟩
  · intro c hc
    exact isDigit_eq_false_of_isPart (hrest c hc)
  · rintro - c hc rfl
    exact absurd (hrest '.' hc) (by decide)

theorem head?_dropWhile_eq_false (p : Char → Bool) (text : List Char) :
    ∀ c ∈ (text.dropWhile p).head?, p c = false := by
  intro c hc
  have hhead := List.head?_dropWhile_not p text
  rw [Option.mem_def.mp hc] at hhead
  exact hhead

theorem longest_of_read {text rest : List Char} {literal : Literal}
    (h : read text = (literal, rest)) : literal.Longest rest := by
  unfold read at h
  split at h
  · obtain ⟨rfl, rfl⟩ := Prod.mk.inj h
    refine ⟨fun c => List.mem_takeWhile_imp, fun c => List.mem_takeWhile_imp,
      head?_dropWhile_eq_false _ _, nofun⟩
  · rename_i hpoint
    obtain ⟨rfl, rfl⟩ := Prod.mk.inj h
    refine ⟨fun c => List.mem_takeWhile_imp, nofun, head?_dropWhile_eq_false _ _, ?_⟩
    rintro - c hc rfl
    obtain ⟨rest, hrest⟩ := List.head?_eq_some_iff.mp hc
    exact hpoint rest hrest

theorem read_eq_iff {text rest : List Char} {literal : Literal} :
    read text = (literal, rest) ↔ literal.chars ++ rest = text ∧
    literal.Longest rest := by
  constructor
  · intro h
    exact ⟨chars_append_of_read h, longest_of_read h⟩
  · rintro ⟨rfl, hwhole, hfraction, hnodigit, hnopoint⟩
    rcases literal with ⟨whole, _ | fraction⟩
    · simp only [chars]
      unfold read
      rw [dropWhile_isDigit_append hwhole hnodigit,
        takeWhile_isDigit_append hwhole hnodigit]
      split
      · exact absurd rfl (hnopoint rfl '.' rfl)
      · rfl
    · change ∀ c ∈ fraction, c.isDigit at hfraction
      have hpoint :
          ∀ c ∈ ('.' :: (fraction ++ rest)).head?, c.isDigit = false := by simp
      simp only [chars, List.append_assoc, List.cons_append]
      unfold read
      rw [dropWhile_isDigit_append hwhole hpoint,
        takeWhile_isDigit_append hwhole hpoint]
      simp only [takeWhile_isDigit_append hfraction hnodigit,
        dropWhile_isDigit_append hfraction hnodigit]

def ofDecimal (d : Decimal) : Literal :=
  ⟨d.whole, if d.places = 0 then none else some d.fraction⟩

theorem chars_ofDecimal (d : Decimal) : (ofDecimal d).chars = d.chars := by
  by_cases hplaces : d.places = 0 <;> simp [ofDecimal, chars, Decimal.chars, hplaces]

theorem fraction_ofDecimal (d : Decimal) : (ofDecimal d).fraction?.getD [] =
    d.fraction := by
  simp only [ofDecimal]
  split
  · rename_i hplaces
    have hlength := d.length_fraction
    rw [hplaces] at hlength
    exact (List.eq_nil_of_length_eq_zero hlength).symm
  · rfl

theorem decimal_ofDecimal (d : Decimal) : (ofDecimal d).decimal = d := by
  rw [decimal, fraction_ofDecimal]
  exact d.ofDigits_whole_fraction

theorem endsInPoint_ofDecimal (d : Decimal) : (ofDecimal d).endsInPoint = false := by
  simp only [endsInPoint, ofDecimal]
  split
  · rfl
  · rename_i hplaces
    have hlength := d.length_fraction
    simp only [Option.some_beq_some, beq_eq_false_iff_ne, ne_eq]
    intro hnil
    rw [hnil] at hlength
    exact hplaces hlength.symm

theorem read_decimal_append (d : Decimal) {rest : List Char} (hrest : endsBefore rest) :
    read (d.chars ++ rest) = (ofDecimal d, rest) := by
  rw [← chars_ofDecimal, read_eq_iff]
  refine ⟨rfl, longest_of_endsBefore ?_ ?_ hrest⟩
  · intro c hc
    exact Decimal.isDigit_of_mem_digits (List.mem_of_mem_take hc)
  · intro c hc
    rw [fraction_ofDecimal] at hc
    exact Decimal.isDigit_of_mem_digits (List.mem_of_mem_drop hc)

theorem exists_digit_of_chars (d : Decimal) :
    ∃ c rest, d.chars = c :: rest ∧ c.isDigit := by
  have hwhole : d.whole ≠ [] := by
    have hlength := d.places_lt_length_digits
    intro hnil
    have hzero := congrArg List.length hnil
    simp only [Decimal.whole, List.length_take, List.length_nil] at hzero
    omega
  obtain ⟨c, others, hcons⟩ := List.exists_cons_of_ne_nil hwhole
  have hdigit : c.isDigit := by
    apply Decimal.isDigit_of_mem_digits
    apply List.mem_of_mem_take
    rw [← Decimal.whole, hcons]
    exact List.mem_cons_self
  simp only [Decimal.chars, hcons]
  split
  · exact ⟨c, others, rfl, hdigit⟩
  · exact ⟨c, _, rfl, hdigit⟩

end Calculator.Literal

namespace Calculator

open Calculator.Binary64

theorem toFloat_shortest {x : Float} (hfinite : x.isFinite)
    (hsign : isNegative x = false) :
    (Decimal.shortest (code x)).toFloat = x := by
  rw [Decimal.toFloat, Decimal.code_shortest (code_le_of_isFinite hfinite), ← hsign]
  exact ofCode_code hfinite

theorem numberChars_of_isFinite {x : Float} (h : x.isFinite) :
    numberChars x =
      if isNegative x then '-' :: (Decimal.shortest (code x)).chars
      else (Decimal.shortest (code x)).chars := by
  have hcode := (isFinite_iff x).mp h
  simp only [numberChars]
  rw [if_neg (Nat.lt_asymm hcode), if_neg (Nat.ne_of_lt hcode)]

end Calculator
