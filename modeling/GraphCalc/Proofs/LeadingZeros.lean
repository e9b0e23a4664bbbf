/-
Leading zeros of the standard calculator's operand.  The zero of a fresh operand is
replaced by the first digit, and results are printed without superfluous zeros; a zero
behind a minus sign is not replaced, and it is the only one that a digit is ever written
behind.
-/
import GraphCalc.Proofs.OperandStates
namespace GraphCalc

/-! ### Digits without a superfluous zero -/

/-- The zero alone, or digits that begin with another one. -/
def IsCanonical (digits : List Char) : Prop :=
  digits = ['0'] ∨ ∃ c ∈ digits.head?, c.isDigit = true ∧ c ≠ '0'

/-- Decided on the first digit: the instance for a character that is quantified tries all
of them. -/
instance (digits : List Char) : Decidable (IsCanonical digits) :=
  @instDecidableOr _ _ inferInstance (Option.decidableExistsMem digits.head?)

/-- The digits before the point. -/
def wholeDigits (magnitude : List Char) : List Char :=
  magnitude.takeWhile (fun c => c != '.')

theorem wholeDigits_of_digits {digits : List Char} (h : ∀ c ∈ digits, c.isDigit = true) :
    wholeDigits digits = digits := by
  refine List.takeWhile_eq_self_iff.mpr (fun c hc => ?_)
  simpa using Decimal.ne_point_of_isDigit (h c hc)

theorem wholeDigits_pointed {digits : List Char} (h : ∀ c ∈ digits, c.isDigit = true)
    (decimals : List Char) : wholeDigits (digits ++ '.' :: decimals) = digits := by
  refine takeWhile_front (fun c hc => ?_) (by simp)
  simpa using Decimal.ne_point_of_isDigit (h c hc)

theorem isCanonical_digit {c : Char} (h : c.isDigit = true) : IsCanonical [c] := by
  by_cases hzero : c = '0'
  · exact Or.inl (by rw [hzero])
  · exact Or.inr ⟨c, rfl, h, hzero⟩

theorem not_isCanonical_zero {digits : List Char} (h : digits ≠ []) :
    ¬ IsCanonical ('0' :: digits) := by
  rintro (hzero | ⟨c, hc, -, hne⟩)
  · exact h (List.cons.inj hzero).2
  · exact hne (Option.some.inj hc).symm

/-- A positive number is written with another digit than zero first. -/
theorem isCanonical_numeral (n : ℕ) : IsCanonical (numeral n) := by
  rcases Nat.eq_zero_or_pos n with rfl | hpos
  · exact Or.inl rfl
  obtain ⟨c, rest, heq⟩ := List.exists_cons_of_ne_nil (numeral_ne_nil n)
  have hdigits : ∀ other ∈ c :: rest, other.isDigit = true := by
    rw [← heq]
    exact fun other => isDigit_of_mem_numeral
  refine Or.inr ⟨c, by rw [heq]; rfl, hdigits c List.mem_cons_self, ?_⟩
  rintro rfl
  -- with a zero first the digits stand for less than their count says
  have hle := pow_length_numeral_le hpos
  have hvalue : numeralValue rest = n := by
    rw [← numeralValue_numeral n, heq]
    exact (numeralValue_zeros_append 1 rest).symm
  have hlt := Decimal.numeralValue_lt
    fun other hother => hdigits other (List.mem_cons_of_mem _ hother)
  rw [heq, List.length_cons, Nat.add_sub_cancel] at hle
  omega

/-- Positional notation fills no places in front. -/
theorem isCanonical_positional (d : Decimal) : IsCanonical (wholeDigits d.positional) := by
  by_cases hwhole : 0 ≤ d.exponent
  · rw [Decimal.positional_of_nonneg hwhole,
      wholeDigits_of_digits (fun c => isDigit_of_mem_numeral)]
    exact isCanonical_numeral _
  simp only [Decimal.positional, if_neg hwhole]
  split
  · exact Or.inl rfl
  · next hplaces =>
      rw [wholeDigits_pointed fun c hc => isDigit_of_mem_numeral (List.mem_of_mem_take hc)]
      rcases isCanonical_numeral d.coefficient with hzero | ⟨c, hc, hdigit, hne⟩
      · have hlength : (numeral d.coefficient).length = 1 := by rw [hzero]; rfl
        omega
      · refine Or.inr ⟨c, ?_, hdigit, hne⟩
        rw [List.head?_take, if_neg (by omega)]
        exact hc

/-! ### Magnitudes -/

namespace IsMagnitude
variable {magnitude : List Char} (h : IsMagnitude magnitude)
include h

/-- One more digit leaves a superfluous zero only behind a zero. -/
theorem isCanonical_concat_digit (hmagnitude : IsCanonical (wholeDigits magnitude)) {c : Char}
    (hc : c.isDigit = true) :
    IsCanonical (wholeDigits (magnitude ++ [c])) ↔ magnitude ≠ ['0'] := by
  cases h with
  | whole hne hdigits =>
      rw [wholeDigits_of_digits hdigits] at hmagnitude
      rw [wholeDigits_of_digits (List.forall_mem_append.mpr ⟨hdigits, by simpa using hc⟩)]
      rcases hmagnitude with rfl | ⟨first, hfirst, hdigit, hzero⟩
      · exact iff_of_false (not_isCanonical_zero (by simp)) (by simp)
      · refine iff_of_true (Or.inr ⟨first, ?_, hdigit, hzero⟩) ?_
        · rwa [List.head?_append_of_ne_nil _ hne]
        · rintro rfl
          exact hzero (Option.some.inj hfirst).symm
  | @pointed digits decimals hne hdigits hdecimals =>
      rw [wholeDigits_pointed hdigits] at hmagnitude
      rw [List.append_assoc, List.cons_append, wholeDigits_pointed hdigits]
      refine iff_of_true hmagnitude (fun heq => ?_)
      have hpoint : '.' ∈ digits ++ '.' :: decimals := by simp
      rw [heq] at hpoint
      exact absurd hpoint (by decide)

theorem wholeDigits_concat_point (hpoint : '.' ∉ magnitude) :
    wholeDigits (magnitude ++ ['.']) = wholeDigits magnitude := by
  cases h with
  | whole hne hdigits => rw [wholeDigits_of_digits hdigits, wholeDigits_pointed hdigits]
  | pointed hne hdigits hdecimals => simp at hpoint

/-- The first digit is the last one that is taken back. -/
theorem isCanonical_dropLast (hmagnitude : IsCanonical (wholeDigits magnitude)) :
    magnitude.dropLast = [] ∨ IsCanonical (wholeDigits magnitude.dropLast) := by
  cases h with
  | whole hne hdigits =>
      rw [wholeDigits_of_digits hdigits] at hmagnitude
      rw [wholeDigits_of_digits fun c hc => hdigits c (List.mem_of_mem_dropLast hc)]
      rcases hmagnitude with rfl | ⟨first, hfirst, hdigit, hzero⟩
      · exact Or.inl rfl
      · obtain ⟨rest, rfl⟩ := List.head?_eq_some_iff.mp hfirst
        rcases List.eq_nil_or_concat rest with rfl | ⟨front, last, rfl⟩
        · exact Or.inl rfl
        · refine Or.inr (Or.inr ⟨first, ?_, hdigit, hzero⟩)
          rw [List.concat_eq_append, ← List.cons_append, List.dropLast_concat]
          rfl
  | @pointed digits decimals hne hdigits hdecimals =>
      rw [wholeDigits_pointed hdigits] at hmagnitude
      refine Or.inr ?_
      rcases List.eq_nil_or_concat decimals with rfl | ⟨front, last, rfl⟩
      · rwa [List.dropLast_concat, wholeDigits_of_digits hdigits]
      · rwa [List.concat_eq_append, ← List.cons_append, ← List.append_assoc, List.dropLast_concat,
          wholeDigits_pointed hdigits]

end IsMagnitude

/-! ### Operands -/

/-- A text without the minus sign before it. -/
def unsigned : List Char → List Char
  | '-' :: rest => rest
  | text => text

/-- The word for an error, or a number without a superfluous zero in front. -/
def Tidy (text : List Char) : Prop :=
  text = Display.errorText ∨ IsCanonical (wholeDigits (unsigned text))

instance (text : List Char) : Decidable (Tidy text) :=
  inferInstanceAs (Decidable (_ ∨ _))

/-- A magnitude begins with no other character than a digit. -/
theorem IsMagnitude.ne_cons {magnitude : List Char} (h : IsMagnitude magnitude) {c : Char}
    (hc : c.isDigit = false) (rest : List Char) : magnitude ≠ c :: rest := by
  obtain ⟨first, more, rfl, hdigit⟩ := h.exists_head
  rintro heq
  rw [(List.cons.inj heq).1, hc] at hdigit
  contradiction

theorem IsMagnitude.ne_nil {magnitude : List Char} (h : IsMagnitude magnitude) :
    magnitude ≠ [] := by
  obtain ⟨first, more, rfl, -⟩ := h.exists_head
  exact List.cons_ne_nil _ _

theorem tidy_signed_iff (negative : Bool) {magnitude : List Char} (h : IsMagnitude magnitude) :
    Tidy (signed negative magnitude) ↔ IsCanonical (wholeDigits magnitude) := by
  have herror : signed negative magnitude ≠ Display.errorText := by
    cases negative with
    | false => exact h.ne_cons rfl _
    | true => exact fun heq => absurd (List.cons.inj heq).1 (by decide)
  have hunsigned : unsigned (signed negative magnitude) = magnitude := by
    cases negative with
    | false => exact unsigned.eq_2 magnitude (h.ne_cons rfl)
    | true => rfl
  rw [Tidy, or_iff_right herror, hunsigned]

/-- Results have no superfluous zeros. -/
theorem tidy_plainText {v : Float} (h : v.isFinite = true) : Tidy (Double.plainText v) := by
  rw [Double.plainText_eq h]
  exact (tidy_signed_iff _ (isMagnitude_positional _)).mpr (isCanonical_positional _)

theorem tidy_digit {c : Char} (h : c.isDigit = true) : Tidy [c] := by
  have hdigits : ∀ other ∈ [c], other.isDigit = true := List.forall_mem_singleton.mpr h
  refine (tidy_signed_iff false (.whole (List.cons_ne_nil c []) hdigits)).mpr ?_
  rw [wholeDigits_of_digits hdigits]
  exact isCanonical_digit h

theorem tidy_zero_point : Tidy ['0', '.'] := by
  decide

namespace IsOperand
variable {text : List Char} (h : IsOperand text) (htidy : Tidy text)
include h htidy

theorem tidy_concat_digit_iff {c : Char} (hc : c.isDigit = true) :
    Tidy (text ++ [c]) ↔ text ≠ ['0'] ∧ text ≠ ['-', '0'] := by
  obtain ⟨negative, magnitude, rfl, hmagnitude, -⟩ := h.exists_signed
  rw [tidy_signed_iff negative hmagnitude] at htidy
  rw [signed_append, tidy_signed_iff negative (hmagnitude.concat_digit hc),
    hmagnitude.isCanonical_concat_digit htidy hc]
  cases negative with
  | false => exact (and_iff_left (hmagnitude.ne_cons rfl _)).symm
  | true => simp [signed]

theorem tidy_concat_point (hpoint : '.' ∉ text) : Tidy (text ++ ['.']) := by
  obtain ⟨negative, magnitude, rfl, hmagnitude, -⟩ := h.exists_signed
  have hpoint' : '.' ∉ magnitude := by
    cases negative with
    | false => exact hpoint
    | true => exact fun hmem => hpoint (List.mem_cons_of_mem _ hmem)
  rw [tidy_signed_iff negative hmagnitude] at htidy
  rw [signed_append, tidy_signed_iff negative (hmagnitude.concat_point hpoint'),
    hmagnitude.wholeDigits_concat_point hpoint']
  exact htidy

theorem tidy_dropLast : text.dropLast = [] ∨ text.dropLast = ['-'] ∨ Tidy text.dropLast := by
  obtain ⟨negative, magnitude, rfl, hmagnitude, -⟩ := h.exists_signed
  rw [tidy_signed_iff negative hmagnitude] at htidy
  rw [hmagnitude.dropLast_signed]
  rcases hmagnitude.dropLast with hempty | hshorter
  · rw [hempty]
    cases negative with
    | false => exact Or.inl rfl
    | true => exact Or.inr (Or.inl rfl)
  · refine Or.inr (Or.inr ((tidy_signed_iff negative hshorter).mpr ?_))
    exact (hmagnitude.isCanonical_dropLast htidy).resolve_left hshorter.ne_nil

theorem tidy_of_minus {rest : List Char} (heq : text = '-' :: rest) : Tidy rest := by
  obtain ⟨negative, magnitude, rfl, hmagnitude, -⟩ := h.exists_signed
  rw [tidy_signed_iff negative hmagnitude] at htidy
  cases negative with
  | false => exact absurd heq (hmagnitude.ne_cons rfl rest)
  | true =>
      rw [← (List.cons.inj heq).2]
      exact (tidy_signed_iff false hmagnitude).mpr htidy

theorem tidy_minus (hhead : ∀ rest : List Char, text ≠ '-' :: rest) : Tidy ('-' :: text) := by
  obtain ⟨negative, magnitude, rfl, hmagnitude, -⟩ := h.exists_signed
  rw [tidy_signed_iff negative hmagnitude] at htidy
  cases negative with
  | false => exact (tidy_signed_iff true hmagnitude).mpr htidy
  | true => exact absurd rfl (hhead magnitude)

end IsOperand

namespace Standard

/-! ### One key -/

theorem tidy_resultText (v : Float) : Tidy (resultText v) := by
  cases h : v.isFinite with
  | true =>
      rw [resultText_of_isFinite h]
      exact tidy_plainText h
  | false => exact Or.inl (resultText_of_not_isFinite h)

/-- The operand is a zero with a minus sign, and the next digit does not replace it. -/
def HoldsMinusZero (s : Standard) : Prop :=
  s.current = ['-', '0'] ∧ s.replacing = false

section Step
variable {s : Standard} (h : s.Consistent) (htidy : Tidy s.current)
include h htidy

theorem tidy_digit_iff {c : Char} (hc : c.isDigit = true) :
    Tidy (s.digit c).current ↔ ¬ s.HoldsMinusZero := by
  rw [digit, hc, Bool.not_true, if_neg Bool.false_ne_true]
  by_cases hreplacing : s.replacing = true
  · rw [if_pos hreplacing]
    refine iff_of_true (tidy_digit hc) ?_
    rintro ⟨-, hkeep⟩
    rw [hkeep] at hreplacing
    contradiction
  have hholds : s.HoldsMinusZero ↔ s.current = ['-', '0'] :=
    and_iff_left (Bool.eq_false_iff.mpr hreplacing)
  rw [if_neg hreplacing, hholds]
  split
  · next hzero =>
      rw [hzero]
      exact iff_of_true (tidy_digit hc) (by decide)
  next hzero =>
  split
  · rw [(h.isOperand_current hreplacing).tidy_concat_digit_iff htidy hc]
    exact and_iff_right hzero
  · next hcount =>
      -- an operand at its full length is no zero
      refine iff_of_true htidy (fun hminus => hcount ?_)
      rw [hminus]
      decide

theorem tidy_point : Tidy s.point.current := by
  rw [point]
  split
  · exact tidy_zero_point
  next hreplacing =>
  split
  · exact htidy
  · next hpoint => exact (h.isOperand_current hreplacing).tidy_concat_point htidy hpoint

omit h in
theorem tidy_equals : Tidy s.equals.current := by
  rw [equals]
  split
  · exact htidy
  split
  · exact htidy
  split
  · exact Or.inl rfl
  · exact tidy_resultText _

theorem tidy_backspace : Tidy s.backspace.current := by
  simp only [backspace]
  split
  · exact tidy_digit (c := '0') rfl
  next hkeep =>
  have hreplacing : ¬ s.replacing = true := fun htrue => hkeep (by simp [htrue])
  split
  · exact tidy_digit (c := '0') rfl
  · next hshorter =>
      rw [not_or] at hshorter
      exact (((h.isOperand_current hreplacing).tidy_dropLast htidy).resolve_left
        hshorter.1).resolve_left hshorter.2

theorem tidy_negate : Tidy s.negate.current := by
  rw [negate]
  split
  · exact htidy
  next hkeep =>
  rw [not_or] at hkeep
  have hoperand : IsOperand s.current := h.current.resolve_left hkeep.2
  split
  · next rest heq => exact hoperand.tidy_of_minus htidy heq
  · next hhead => exact hoperand.tidy_minus htidy hhead

/-- A key leaves a superfluous zero exactly when it is a digit behind a zero with a minus
sign. -/
theorem tidy_step_iff (key : Action) : Tidy (s.step key).current ↔
    ∀ c : Char, key = .digit c → c.isDigit = true → ¬ s.HoldsMinusZero := by
  cases key with
  | digit c =>
      cases hc : c.isDigit with
      | true =>
          rw [step, tidy_digit_iff h htidy hc]
          simp [hc]
      | false =>
          have hsame : s.digit c = s := by simp [digit, hc]
          rw [step, hsame]
          simp [htidy, hc]
  | point => exact iff_of_true (tidy_point h htidy) (by simp)
  | operator op => exact iff_of_true (tidy_equals htidy) (by simp)
  | equals => exact iff_of_true (tidy_equals htidy) (by simp)
  | clear => exact iff_of_true (tidy_digit (c := '0') rfl) (by simp)
  | backspace => exact iff_of_true (tidy_backspace h htidy) (by simp)
  | negate => exact iff_of_true (tidy_negate h htidy) (by simp)
  | percent => exact iff_of_true (tidy_resultText _) (by simp)

end Step

/-! ### Every run -/

theorem tidy_run_concat_iff {actions : List Action} (h : Tidy (run start actions).current)
    (key : Action) : Tidy (run start (actions ++ [key])).current ↔
      ∀ c : Char, key = .digit c → c.isDigit = true → ¬ (run start actions).HoldsMinusZero := by
  rw [run_concat]
  exact tidy_step_iff (consistent_run actions) h key

/-- The operand is tidy all along a run exactly when no digit is typed behind a zero with a
minus sign.  And behind every run that left it tidy, a key leaves it so exactly when it is
no such digit. -/
theorem tidy_run_iff (actions : List Action) :
    ((∀ before : List Action, before <+: actions → Tidy (run start before).current) ↔
      ∀ (before : List Action) (c : Char), before ++ [.digit c] <+: actions →
        c.isDigit = true → ¬ (run start before).HoldsMinusZero) ∧
      (Tidy (run start actions).current → ∀ key : Action,
        (Tidy (run start (actions ++ [key])).current ↔
          ∀ c : Char, key = .digit c → c.isDigit = true →
            ¬ (run start actions).HoldsMinusZero)) := by
  refine ⟨⟨?_, ?_⟩, tidy_run_concat_iff⟩
  · intro hall before c hprefix hc
    have hbefore : before <+: actions := (List.prefix_append before [.digit c]).trans hprefix
    exact (tidy_run_concat_iff (hall before hbefore) (.digit c)).mp (hall _ hprefix) c rfl hc
  · intro hno before
    induction before using List.reverseRecOn with
    | nil => exact fun _ => tidy_digit (c := '0') rfl
    | append_singleton before key ih =>
        intro hprefix
        have hbefore : before <+: actions := (List.prefix_append before [key]).trans hprefix
        refine (tidy_run_concat_iff (ih hbefore) key).mpr (fun c hkey hc => ?_)
        rw [hkey] at hprefix
        exact hno before c hprefix hc

/-- A zero with a minus sign is left where the point behind it is taken back, and the
next digit is written behind it. -/
theorem not_tidy_run_negate_backspace :
    (run start [.point, .negate, .backspace, .digit '5']).current = ['-', '0', '5'] ∧
      ¬ Tidy (run start [.point, .negate, .backspace, .digit '5']).current := by
  have htyped : (run start [.point, .negate, .backspace, .digit '5']).current =
      ['-', '0', '5'] := rfl
  rw [htyped]
  exact ⟨rfl, by decide⟩

end Standard

end GraphCalc
