import Calculator.Decimal

namespace Calculator

/-- The digits before the point, and those after it if there is a point. -/
structure Literal where
  whole : List Char
  fraction? : Option (List Char)
deriving DecidableEq

namespace Literal

def isPart (c : Char) : Bool :=
  c.isDigit || c == '.'

def chars (literal : Literal) : List Char :=
  match literal.fraction? with
  | none => literal.whole
  | some fraction => literal.whole ++ '.' :: fraction

def text (literal : Literal) : String :=
  String.ofList literal.chars

/-- Takes the longest literal from the front of a text and returns it with the rest. -/
def read (text : List Char) : Literal × List Char :=
  match text.dropWhile Char.isDigit with
  | '.' :: rest =>
      (⟨text.takeWhile Char.isDigit, some (rest.takeWhile Char.isDigit)⟩,
        rest.dropWhile Char.isDigit)
  | rest => (⟨text.takeWhile Char.isDigit, none⟩, rest)

def endsInPoint (literal : Literal) : Bool :=
  literal.fraction? == some []

def decimal (literal : Literal) : Decimal :=
  .ofDigits literal.whole (literal.fraction?.getD [])

theorem chars_append_of_read {text rest : List Char} {literal : Literal}
    (h : read text = (literal, rest)) : literal.chars ++ rest = text := by
  have hsplit : text.takeWhile Char.isDigit ++ text.dropWhile Char.isDigit = text :=
    List.takeWhile_append_dropWhile
  unfold read at h
  split at h
  · rename_i after hafter
    obtain ⟨rfl, rfl⟩ := Prod.mk.inj h
    have htail : after.takeWhile Char.isDigit ++ after.dropWhile Char.isDigit = after :=
      List.takeWhile_append_dropWhile
    rw [hafter] at hsplit
    simpa [chars, htail] using hsplit
  · obtain ⟨rfl, rfl⟩ := Prod.mk.inj h
    exact hsplit

theorem length_rest_lt {c : Char} {text rest : List Char} {literal : Literal}
    (hc : isPart c) (h : read (c :: text) = (literal, rest)) :
    rest.length < text.length + 1 := by
  have hchars : literal.chars ≠ [] := by
    by_cases hdigit : c.isDigit = true
    · have hwhole : literal.whole = c :: text.takeWhile Char.isDigit := by
        unfold read at h
        split at h <;> obtain ⟨rfl, rfl⟩ := Prod.mk.inj h <;> simp [hdigit]
      unfold chars
      split <;> simp [hwhole]
    · have hpoint : c = '.' := by simpa [isPart, hdigit] using hc
      subst hpoint
      obtain ⟨rfl, rfl⟩ := Prod.mk.inj h
      simp [chars]
  have hlength := congrArg List.length (chars_append_of_read h)
  have := List.length_pos_iff.2 hchars
  simp only [List.length_append, List.length_cons] at hlength
  omega

end Literal

end Calculator
