import Calculator.Proofs.LexicalGrammar

namespace Calculator

open Calculator.Text

theorem Lexeme.Offends.ne_emptyExpression {lexeme : Lexeme} {fault : Fault}
    (h : lexeme.Offends fault) : fault ≠ .emptyExpression := by
  cases h <;> exact Fault.noConfusion

namespace Lexer

/-- How the reading of a text stops: at its end, or behind the first lexeme that is
no token. What is left has no part in the answer. -/
inductive Stops : List Char → Except Fault (List Token) × List Char → Prop
  | atEnd (text : List Char) (sequence : List Token) : Stops text (.ok sequence, [])
  | rejected (front : List Char) {behind : List Char} {lexeme : Lexeme} {fault : Fault} :
      lexeme.Leads behind → lexeme.token = .error fault →
        tokens (front ++ lexeme.chars) = (.error fault, []) →
        Stops (front ++ lexeme.chars ++ behind) (.error fault, behind)

theorem stops (text : List Char) : Stops text (tokens text) := by
  induction text using Lexeme.induction_on_text with
  | nil =>
      rw [tokens]
      exact .atEnd [] []
  | blank c rest hblank ih =>
      rw [tokens_blank hblank]
      generalize tokens rest = answer at ih
      cases ih with
      | atEnd rest sequence => exact .atEnd _ sequence
      | rejected front hleads htoken hfront =>
          rw [← tokens_blank hblank, ← List.cons_append] at hfront
          exact .rejected (c :: front) hleads htoken hfront
  | append lexeme rest hleads ih =>
      rcases htoken : lexeme.token with fault | first
      · rw [Lexeme.tokens_append_of_error hleads htoken]
        have hnil : lexeme.Leads [] := Lexeme.Leads.of_append hleads
        have halone := Lexeme.tokens_append_of_error hnil htoken
        rw [List.append_nil] at halone
        exact .rejected [] hleads htoken halone
      · rw [Lexeme.tokens_append_of_ok hleads htoken]
        generalize tokens rest = answer at ih
        cases ih with
        | atEnd rest sequence => exact .atEnd _ (first :: sequence)
        | @rejected front behind other fault hother hfault hfront =>
            have halone := Lexeme.tokens_append_of_ok hleads.of_append htoken
            rw [hfront, ← List.append_assoc] at halone
            rw [← List.append_assoc, ← List.append_assoc]
            exact .rejected (lexeme.chars ++ front) hother hfault halone

def foundNothing : Except Fault (List Token) → Bool
  | .error .emptyExpression => true
  | _ => false

/-- What a call on a text does: it consumes a stretch of it, leaves what is behind,
and reads its answer off the stretch alone. It ends behind the lexeme that it
rejects, which could not be longer, or else at the end of the text. -/
structure Call (stretch behind : List Char) (answer : Except Fault (List Token)) :
    Prop where
  reads : lex (stretch ++ behind) = (answer, behind)
  alone : lex stretch = (answer, [])
  progress : foundNothing answer = false → ∃ c ∈ stretch, ¬ isBlank c
  rejected : ∀ fault, answer = .error fault → fault ≠ .emptyExpression →
    ∃ front, ∃ lexeme : Lexeme, stretch = front ++ lexeme.chars ∧ lexeme.Leads behind ∧
      lexeme.Offends fault
  finished : (∀ fault, answer = .error fault → fault = .emptyExpression) → behind = []

section OneCall

variable {text behind : List Char}

theorem foundNothing_eq_true_iff {answer : Except Fault (List Token)} :
    foundNothing answer = true ↔ answer = .error .emptyExpression := by
  constructor
  · intro h
    unfold foundNothing at h
    split at h
    · rfl
    · contradiction
  · rintro rfl
    rfl

theorem exists_not_blank {answer : Except Fault (List Token)}
    (h : lex text = (answer, behind))
    (hfound : foundNothing answer = false) : ∃ c ∈ text, ¬ isBlank c := by
  by_contra hnone
  push Not at hnone
  have hempty := lex_of_blank hnone
  rw [h] at hempty
  rw [foundNothing_eq_true_iff.mpr hempty] at hfound
  contradiction

theorem lex_of_tokens_nil (h : tokens text = (.ok [], behind)) :
    lex text = (.error .emptyExpression, behind) := by
  rw [lex, h]

theorem lex_nil : lex [] = (.error .emptyExpression, []) :=
  lex_of_tokens_nil (by rw [tokens])

theorem lex_of_tokens_cons {first : Token} {others : List Token}
    (h : tokens text = (.ok (first :: others), behind)) :
    lex text = (.ok (first :: others), behind) := by
  rw [lex, h]

theorem lex_of_tokens_error {fault : Fault} (h : tokens text = (.error fault, behind)) :
    lex text = (.error fault, behind) := by
  rw [lex, h]

theorem call_of_end {answer : Except Fault (List Token)} (h : lex text = (answer, []))
    (hfault : ∀ fault, answer = .error fault → fault = .emptyExpression) :
    Call text [] answer := by
  refine ⟨?_, h, exists_not_blank h, ?_, fun _ => rfl⟩
  · rwa [List.append_nil]
  · intro fault hanswer hne
    exact absurd (hfault fault hanswer) hne

theorem call_of_rejected {front : List Char} {lexeme : Lexeme} {fault : Fault}
    (hleads : lexeme.Leads behind) (hoffends : lexeme.Offends fault)
    (hreads : lex (front ++ lexeme.chars ++ behind) = (.error fault, behind))
    (halone : lex (front ++ lexeme.chars) = (.error fault, [])) :
    Call (front ++ lexeme.chars) behind (.error fault) := by
  refine ⟨hreads, halone, exists_not_blank halone, ?_, ?_⟩
  · rintro other ⟨⟩ -
    exact ⟨front, lexeme, rfl, hleads, hoffends⟩
  · intro hempty
    exact absurd (hempty fault rfl) hoffends.ne_emptyExpression

theorem exists_call (text : List Char) :
    ∃ stretch, text = stretch ++ (lex text).2 ∧
    Call stretch (lex text).2 (lex text).1 := by
  have hstops := stops text
  rcases htokens : tokens text with ⟨result, left⟩
  rw [htokens] at hstops
  cases hstops with
  | atEnd _ sequence =>
      cases sequence with
      | nil =>
          have hlex := lex_of_tokens_nil htokens
          rw [hlex]
          refine ⟨text, (List.append_nil text).symm, call_of_end hlex ?_⟩
          rintro fault ⟨⟩
          rfl
      | cons first others =>
          have hlex := lex_of_tokens_cons htokens
          rw [hlex]
          exact ⟨text, (List.append_nil text).symm, call_of_end hlex nofun⟩
  | @rejected front _ lexeme fault hleads htoken hfront =>
      have hlex := lex_of_tokens_error htokens
      have hoffends := Lexeme.token_eq_error_iff.mp htoken
      rw [hlex]
      exact ⟨front ++ lexeme.chars, rfl,
        call_of_rejected hleads hoffends hlex (lex_of_tokens_error hfront)⟩

/-- The stretch of a text that a call consumes. -/
def consumed (text : List Char) : List Char :=
  text.take (text.length - (lex text).2.length)

theorem call (text : List Char) :
    consumed text ++ (lex text).2 = text ∧
    Call (consumed text) (lex text).2 (lex text).1 := by
  obtain ⟨stretch, htext, hcall⟩ := exists_call text
  rcases hlex : lex text with ⟨answer, left⟩
  rw [hlex] at htext hcall
  subst htext
  have hconsumed : consumed (stretch ++ left) = stretch := by
    simp [consumed, hlex]
  rw [hconsumed]
  exact ⟨rfl, hcall⟩

end OneCall

/-- What so many calls in a row leave of a text. -/
def leftAfter : (calls : Nat) → List Char → List Char
  | 0, text => text
  | calls + 1, text => leftAfter calls (lex text).2

def stretches : (calls : Nat) → List Char → List (List Char)
  | 0, _ => []
  | calls + 1, text => consumed text :: stretches calls (lex text).2

section Calls

theorem leftAfter_succ (calls : Nat) (text : List Char) :
    leftAfter (calls + 1) text = (lex (leftAfter calls text)).2 := by
  induction calls generalizing text with
  | zero => rfl
  | succ calls ih => exact ih (lex text).2

theorem flatten_stretches (calls : Nat) (text : List Char) :
    (stretches calls text).flatten ++ leftAfter calls text = text := by
  induction calls generalizing text with
  | zero => rfl
  | succ calls ih =>
      rw [stretches, leftAfter, List.flatten_cons, List.append_assoc, ih, (call text).1]

theorem getElem?_stretches {number calls : Nat} (h : number < calls)
    (text : List Char) :
    (stretches calls text)[number]? = some (consumed (leftAfter number text)) := by
  induction calls generalizing number text with
  | zero => contradiction
  | succ calls ih =>
      cases number with
      | zero => rfl
      | succ number => exact ih (Nat.lt_of_succ_lt_succ h) (lex text).2

theorem getElem?_lexRepeatedly {number calls : Nat} (h : number < calls)
    (text : List Char) :
    (lexRepeatedly calls text)[number]? = some (lex (leftAfter number text)).1 := by
  induction calls generalizing number text with
  | zero => contradiction
  | succ calls ih =>
      cases number with
      | zero => rfl
      | succ number => exact ih (Nat.lt_of_succ_lt_succ h) (lex text).2

theorem leftAfter_eq_nil {number later : Nat} {text : List Char}
    (hle : number ≤ later) (h : leftAfter number text = []) :
    leftAfter later text = [] := by
  induction hle with
  | refl => exact h
  | step _ ih => rw [leftAfter_succ, ih, lex_nil]

theorem countP_lexRepeatedly_le (calls : Nat) (text : List Char) :
    (lexRepeatedly calls text).countP (fun answer => !foundNothing answer) ≤
      text.countP fun c => !isBlank c := by
  induction calls generalizing text with
  | zero => exact Nat.zero_le _
  | succ calls ih =>
      obtain ⟨htext, hcall⟩ := call text
      have hrest := ih (lex text).2
      conv_rhs => rw [← htext]
      rw [lexRepeatedly, List.countP_cons, List.countP_append]
      split
      · rename_i hfound
        obtain ⟨c, hc, hblank⟩ := hcall.progress (by simpa using hfound)
        have hpos : 0 < (consumed text).countP fun c => !isBlank c :=
          List.countP_pos_iff.mpr ⟨c, hc, by simpa using hblank⟩
        omega
      · omega

end Calls

/-- Calls in a row on one text read on where the last one stopped: their stretches
make up the text from its beginning, each call answers for its own, and none that
found something is without a character that is not blank. After one that got to the
end of the text, nothing is found. -/
theorem lexRepeatedly_resumes (text : List Char) (calls : Nat) :
    (stretches calls text).flatten ++ leftAfter calls text = text ∧
    (∀ number < calls, ∃ stretch answer,
      (stretches calls text)[number]? = some stretch ∧
      (lexRepeatedly calls text)[number]? = some answer ∧
      leftAfter number text = stretch ++ leftAfter (number + 1) text ∧
      Call stretch (leftAfter (number + 1) text) answer) ∧
    (∀ number later, number < later → later < calls →
      (∃ sequence, (lexRepeatedly calls text)[number]? = some (.ok sequence)) ∨
        (lexRepeatedly calls text)[number]? = some (.error .emptyExpression) →
      (lexRepeatedly calls text)[later]? = some (.error .emptyExpression)) ∧
    (lexRepeatedly calls text).countP (fun answer => !foundNothing answer) ≤
      text.countP fun c => !isBlank c := by
  refine ⟨flatten_stretches calls text, ?_, ?_, countP_lexRepeatedly_le calls text⟩
  · intro number hnumber
    obtain ⟨htext, hcall⟩ := call (leftAfter number text)
    rw [← leftAfter_succ] at htext hcall
    exact ⟨_, _, getElem?_stretches hnumber text, getElem?_lexRepeatedly hnumber text,
      htext.symm, hcall⟩
  · intro number later hlater hcalls hanswer
    rw [getElem?_lexRepeatedly (hlater.trans hcalls)] at hanswer
    have hend : leftAfter (number + 1) text = [] := by
      rw [leftAfter_succ]
      apply (call (leftAfter number text)).2.finished
      intro fault hfault
      rw [hfault] at hanswer
      rcases hanswer with ⟨sequence, hanswer⟩ | hanswer
      · exact absurd (Option.some.inj hanswer) nofun
      · exact Except.error.inj (Option.some.inj hanswer)
    rw [getElem?_lexRepeatedly hcalls, leftAfter_eq_nil hlater hend, lex_nil]

/-- The first of two points ends a literal, and the second one is read by the next
call. -/
theorem lexRepeatedly_resumes_points :
    stretches 5 " 1..$ )".toList = [" 1.", ".", "$", " )", ""].map String.toList ∧
      (lexRepeatedly 5 " 1..$ )".toList)[3]? = some (.ok [.closing]) ∧
      (lexRepeatedly 5 " 1..$ )".toList)[4]? = some (.error .emptyExpression) ∧
      (lexRepeatedly 5 " 1..$ )".toList).countP (fun answer => !foundNothing answer) ≤ 5 := by
  have hstretches : stretches 5 " 1..$ )".toList =
      [" 1.", ".", "$", " )", ""].map String.toList := by
    cbv
  have hclosing : (lexRepeatedly 5 " 1..$ )".toList)[3]? = some (.ok [.closing]) := by
    cbv
  obtain ⟨-, -, hlater, hcount⟩ := lexRepeatedly_resumes " 1..$ )".toList 5
  exact ⟨hstretches, hclosing,
    hlater 3 4 (by decide) (by decide) (.inl ⟨_, hclosing⟩), hcount⟩

end Lexer

end Calculator
