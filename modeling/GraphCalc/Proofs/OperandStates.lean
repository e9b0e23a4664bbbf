/-
The states of the standard calculator.  Behind every run of keys its two texts are
operands or the word for an error, an error is replaced by the next digit, an
operation is pending exactly where there is an operand before it, and the word for
an error is shown for an error only.
-/
import GraphCalc.Proofs.DoubleArithmetic
import GraphCalc.Proofs.NumberReading
import GraphCalc.Proofs.OperandText
import GraphCalc.Standard
namespace GraphCalc

/-! ### What is shown for an operand -/

namespace Display

theorem mem_of_mem_dropEnd {text : List Char} {c other : Char} (h : c ∈ dropEnd text other) :
    c ∈ text := by
  rw [dropEnd, List.mem_reverse] at h
  exact List.mem_reverse.mp ((List.dropWhile_sublist _).mem h)

theorem not_mem_signed {negative : Bool} {text : List Char} (h : 'E' ∉ text) :
    'E' ∉ signed negative text := by
  cases negative with
  | false => exact h
  | true => simpa [signed] using h

theorem not_mem_positional (d : Decimal) : 'E' ∉ d.positional := by
  intro hmem
  have hcases := Decimal.isDigit_or_point_of_mem_positional hmem
  exact absurd hcases (by decide)

theorem not_mem_poweredText (d : Decimal) : 'E' ∉ poweredText d := by
  intro hmem
  rw [poweredText, List.mem_append, List.mem_cons] at hmem
  rcases hmem with hmantissa | hmark | hpower
  · exact absurd (inMantissa_of_mem_mantissaText hmantissa) (by decide)
  · exact absurd hmark (by decide)
  · exact absurd (isDigit_of_mem_powerText hpower) (by decide)

theorem not_mem_fixedPlaces (places : ℕ) {v : Float} (h : v.isFinite = true) :
    'E' ∉ Double.fixedPlaces places v := by
  simp only [Double.fixedPlaces, Double.textWith, Double.isNaN_of_isFinite h, h,
    Bool.false_eq_true, if_false, if_true]
  exact not_mem_signed (not_mem_positional _)

/-- The numbers in exponential notation are not zero. -/
theorem pattern_pos_of_large {v : Float} (h : v.isFinite = true)
    (hlarge : (decide (1e12 < v.abs) || (v != 0.0 && decide (v.abs < 1e-10))) = true) :
    0 < Double.pattern v := by
  obtain ⟨hnegative, hpattern⟩ := magnitude_limits h
  have htop := Nat.le_of_lt (Double.pattern_lt_top h)
  rw [Bool.or_eq_true, Bool.and_eq_true, decide_eq_true_eq] at hlarge
  rcases hlarge with hlarge | ⟨hzero, -⟩
  · rw [Double.lt_iff (by decide +kernel) hnegative (by decide +kernel)
      (by rw [hpattern]; exact htop), hpattern] at hlarge
    exact Nat.zero_lt_of_lt hlarge
  · rw [bne, Double.beq_zero_eq htop] at hzero
    simpa [Nat.pos_iff_ne_zero] using hzero

/-- An operand is shown as a number. -/
theorem operand_ne_errorText {text : List Char} (h : IsOperand text) :
    operand text ≠ errorText := by
  have hmark : 'E' ∉ operand text := by
    obtain ⟨v, hread, hv⟩ := h.isFinite
    simp only [operand, if_neg h.ne_errorText, hread, hv, Bool.not_true, Bool.false_eq_true,
      if_false]
    split
    · next hlarge =>
        rw [exponential_eq hv (pattern_pos_of_large hv hlarge)]
        exact not_mem_signed (not_mem_poweredText _)
    split
    · intro hmem
      exact not_mem_fixedPlaces 10 hv (mem_of_mem_dropEnd (mem_of_mem_dropEnd hmem))
    · intro hmem
      exact absurd (h.cases_of_mem hmem) (by decide)
  intro heq
  rw [heq] at hmark
  exact hmark (by decide)

end Display

namespace Standard

/-! ### Results -/

/-- What the calculator keeps as an operand: the text of a finite number, or the word
for an error. -/
def Held (text : List Char) : Prop :=
  text = Display.errorText ∨ IsOperand text

theorem Held.ne_nil {text : List Char} (h : Held text) : text ≠ [] := by
  rcases h with rfl | hoperand
  · exact List.cons_ne_nil _ _
  · exact hoperand.ne_nil

theorem resultText_of_isFinite {v : Float} (h : v.isFinite = true) :
    resultText v = Double.plainText v := by
  rw [resultText, if_pos h]

theorem resultText_of_not_isFinite {v : Float} (h : v.isFinite = false) :
    resultText v = Display.errorText := by
  rw [resultText, h, if_neg Bool.false_ne_true]

theorem held_resultText (v : Float) : Held (resultText v) := by
  cases h : v.isFinite with
  | true =>
      rw [resultText_of_isFinite h]
      exact Or.inr (isOperand_plainText h)
  | false => exact Or.inl (resultText_of_not_isFinite h)

theorem isNaN_operandValue_errorText : (operandValue Display.errorText).isNaN = true := by
  decide +kernel

theorem isFinite_operandValue {text : List Char} (h : IsOperand text) :
    (operandValue text).isFinite = true := by
  obtain ⟨v, hread, hv⟩ := h.isFinite
  rw [operandValue, hread]
  exact hv

/-- The hundredth of an operand is an operand, and that of an error is an error. -/
theorem percent_current {s : Standard} (h : Held s.current) :
    (s.current = Display.errorText ∧ s.percent.current = Display.errorText) ∨
      IsOperand s.percent.current := by
  rcases h with herror | hoperand
  · refine Or.inl ⟨herror, resultText_of_not_isFinite (Double.isFinite_of_isNaN ?_)⟩
    rw [herror]
    exact (Double.isNaN_arithmetic isNaN_operandValue_errorText 100.0).2.2.2
  · refine Or.inr ?_
    have hfinite : (operandValue s.current / 100.0).isFinite = true :=
      Double.isFinite_div (isFinite_operandValue hoperand) (by decide +kernel) (by decide +kernel)
    rw [percent, resultText_of_isFinite hfinite]
    exact isOperand_plainText hfinite

/-! ### One key -/

/-- The state as the keys leave it. -/
structure Consistent (s : Standard) : Prop where
  current : Held s.current
  /-- an error is replaced by the next digit -/
  replacing : s.current = Display.errorText → s.replacing = true
  pending : s.pending = none ↔ s.previous = []
  previous : s.previous ≠ [] → Held s.previous

theorem consistent_start : start.Consistent where
  current := Or.inr (.of_digit (by decide))
  replacing := by decide
  pending := by decide
  previous := fun hne => absurd rfl hne

namespace Consistent
variable {s : Standard} (h : s.Consistent)
include h

/-- A typed operand takes the place of the one before. -/
theorem edit {text : List Char} (htext : IsOperand text) (replacing : Bool) :
    ({ s with current := text, replacing } : Standard).Consistent where
  current := Or.inr htext
  replacing := fun herror => absurd herror htext.ne_errorText
  pending := h.pending
  previous := h.previous

/-- An operand that is not replaced is not an error. -/
theorem isOperand_current (hreplacing : ¬ s.replacing = true) : IsOperand s.current :=
  h.current.resolve_left (fun herror => hreplacing (h.replacing herror))

theorem digit (c : Char) : (s.digit c).Consistent := by
  rw [Standard.digit]
  split
  · exact h
  next hdigit =>
  have hc : c.isDigit = true := by simpa using hdigit
  split
  · exact h.edit (.of_digit hc) false
  next hreplacing =>
  split
  · exact h.edit (.of_digit hc) s.replacing
  split
  · next hcount =>
      have hfew : s.current.countP Char.isDigit < 300 := Nat.lt_trans hcount (by decide)
      exact h.edit ((h.isOperand_current hreplacing).concat_digit hc hfew) s.replacing
  · exact h

theorem point : s.point.Consistent := by
  rw [Standard.point]
  split
  · exact h.edit .zero_point false
  next hreplacing =>
  split
  · exact h
  · next hpoint =>
      exact h.edit ((h.isOperand_current hreplacing).concat_point hpoint) s.replacing

theorem equals : s.equals.Consistent := by
  rw [Standard.equals]
  split
  · exact h
  split
  · exact h
  split
  · exact ⟨Or.inl rfl, fun _ => rfl, by simp, fun hne => absurd rfl hne⟩
  · exact ⟨held_resultText _, fun _ => rfl, by simp, fun hne => absurd rfl hne⟩

theorem operator (op : Op) : (s.operator op).Consistent where
  current := h.equals.current
  replacing := fun _ => rfl
  pending := by simp [Standard.operator, h.equals.current.ne_nil]
  previous := fun _ => h.equals.current

theorem backspace : s.backspace.Consistent := by
  simp only [Standard.backspace]
  split
  · exact consistent_start
  next hkeep =>
  have hreplacing : ¬ s.replacing = true := fun htrue => hkeep (by simp [htrue])
  rcases (h.isOperand_current hreplacing).dropLast with hempty | hsign | hshorter
  · rw [if_pos (Or.inl hempty)]
    exact h.edit (.of_digit (by decide)) s.replacing
  · rw [if_pos (Or.inr hsign)]
    exact h.edit (.of_digit (by decide)) s.replacing
  · split
    · exact h.edit (.of_digit (by decide)) s.replacing
    · exact h.edit hshorter s.replacing

theorem negate : s.negate.Consistent := by
  rw [Standard.negate]
  split
  · exact h
  next hkeep =>
  rw [not_or] at hkeep
  have hoperand : IsOperand s.current := h.current.resolve_left hkeep.2
  split
  · next rest heq => exact h.edit (hoperand.of_minus heq) s.replacing
  · next hhead => exact h.edit (hoperand.minus hhead) s.replacing

theorem percent : s.percent.Consistent := by
  rcases percent_current h.current with ⟨herror, hpercent⟩ | hoperand
  · exact ⟨Or.inl hpercent, fun _ => h.replacing herror, h.pending, h.previous⟩
  · exact h.edit hoperand s.replacing

/-- Every key keeps the state consistent. -/
theorem step (key : Action) : (s.step key).Consistent := by
  cases key with
  | digit c => exact h.digit c
  | point => exact h.point
  | operator op => exact h.operator op
  | equals => exact h.equals
  | clear => exact consistent_start
  | backspace => exact h.backspace
  | negate => exact h.negate
  | percent => exact h.percent

/-- An error is shown where the operand is one. -/
theorem display_eq_errorText_iff :
    s.display = Display.errorText ↔ s.current = Display.errorText := by
  rcases h.current with herror | hoperand
  · simp [display, herror, Display.operand]
  · simp [display, Display.operand_ne_errorText hoperand, hoperand.ne_errorText]

end Consistent

/-! ### Every run -/

theorem run_append (s : Standard) (actions more : List Action) :
    s.run (actions ++ more) = (s.run actions).run more := by
  simp [run]

theorem run_concat (s : Standard) (actions : List Action) (key : Action) :
    s.run (actions ++ [key]) = (s.run actions).step key :=
  s.run_append actions [key]

theorem consistent_run (actions : List Action) : (run start actions).Consistent := by
  induction actions using List.reverseRecOn with
  | nil => exact consistent_start
  | append_singleton actions key ih =>
      rw [run_concat]
      exact ih.step key

/-- Behind every run of actions, the keys of the keyboard being some of them, both
operands are texts of finite numbers or the word for an error, an error waits to be
replaced, an operation is pending exactly where an operand stands before it, and an
error is shown exactly where the operand is one. -/
theorem run_holds_operands (actions : List Action) :
    let s := run start actions
    (s.current = Display.errorText ∨ IsOperand s.current) ∧
      (s.current = Display.errorText → s.replacing = true) ∧
      (s.pending = none ↔ s.previous = []) ∧
      (s.previous ≠ [] → s.previous = Display.errorText ∨ IsOperand s.previous) ∧
      (s.display = Display.errorText ↔ s.current = Display.errorText) := by
  intro s
  have hconsistent : s.Consistent := consistent_run actions
  exact ⟨hconsistent.current, hconsistent.replacing, hconsistent.pending,
    hconsistent.previous, hconsistent.display_eq_errorText_iff⟩

end Standard

end GraphCalc
