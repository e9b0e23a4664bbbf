/-
Reading a result back.  The text of a result evaluates to a double again, and that
double has the same text, except where rounding carries a magnitude over one of
the limits between the notations.
-/
import GraphCalc.Proofs.WholeNumbers
namespace GraphCalc.Display

open Layout (double)

/-! ### The decimal that is read -/

/-- The decimal that the text of a magnitude is read as. -/
def readBack (code : ℕ) : Decimal :=
  if Powered code then Double.roundedTo 7 code
  else if Whole code then ⟨double.units code / double.unitDenominator, 0⟩
  else (double.shortest ((Double.roundedTo 12 code).pattern double)).writtenOut

section Magnitude
variable {code : ℕ}

theorem powered_pos (h : Powered code) : 0 < code := by
  rcases h with hlarge | hsmall
  · exact Nat.lt_of_lt_of_le (by decide) hlarge
  · exact hsmall.1

theorem not_powered_iff (hpos : 0 < code) :
    ¬ Powered code ↔ lowerLimit ≤ code ∧ code < upperLimit := by
  rw [Powered]
  omega

theorem readsAs_magnitudeText (code : ℕ) : ReadsAs (magnitudeText code) (readBack code) := by
  rw [magnitudeText, readBack]
  split
  · next hpowered =>
      obtain ⟨hle, hlt⟩ := Double.roundedTo_coefficient (by decide : 0 < 7)
        (powered_pos hpowered)
      exact readsAs_poweredText hle hlt
  split
  · exact readsAs_numeral _
  · exact readsAs_positional _

theorem pattern_readBack_of_powered (h : Powered code) :
    (readBack code).pattern double = (Double.roundedTo 7 code).pattern double := by
  rw [readBack, if_pos h]

theorem pattern_readBack_of_whole (h : ¬ Powered code) (hwhole : Whole code)
    (hfinite : code < double.top) : (readBack code).pattern double = code := by
  rw [readBack, if_neg h, if_pos hwhole]
  refine Decimal.pattern_eq (Nat.le_of_lt hfinite) ?_
  rw [magnitude_of_whole hwhole, Decimal.value, zpow_zero, mul_one]

theorem pattern_readBack_of_not_whole (h : ¬ Powered code) (hwhole : ¬ Whole code) :
    (readBack code).pattern double = (Double.roundedTo 12 code).pattern double := by
  rw [readBack, if_neg h, if_neg hwhole, Decimal.pattern_congr (Decimal.value_writtenOut _),
    Layout.pattern_shortest (Decimal.pattern_le_top _)]

theorem pattern_readBack_lt_top (hfinite : code < double.top) :
    (readBack code).pattern double < double.top := by
  by_cases hpowered : Powered code
  · rw [pattern_readBack_of_powered hpowered]
    exact Double.pattern_roundedTo_lt_top (powered_pos hpowered) hfinite
  by_cases hwhole : Whole code
  · rwa [pattern_readBack_of_whole hpowered hwhole hfinite]
  · rw [pattern_readBack_of_not_whole hpowered hwhole]
    have hpos := not_whole_pos hwhole
    have hle := pattern_roundedTo_le_upperLimit (by decide : 0 < 12) hpos
      ((not_powered_iff hpos).mp hpowered).2
    exact Nat.lt_of_le_of_lt hle (by decide)

/-! ### The limits -/

theorem le_pattern_of_large (h : upperLimit ≤ code) :
    upperLimit ≤ (Double.roundedTo 7 code).pattern double := by
  have hpos : 0 < code := Nat.lt_of_lt_of_le (by decide) h
  have hmagnitude := double.magnitude_strictMono.monotone h
  rw [magnitude_upperLimit] at hmagnitude
  refine Decimal.le_pattern (by decide) ?_
  rw [magnitude_upperLimit]
  exact Decimal.le_value_significant (by decide) (double.units_pos hpos)
    double.unitDenominator_natPos hmagnitude

theorem pattern_of_value_lower {d : Decimal} (h : d.value = 10 ^ (-10 : ℤ)) :
    d.pattern double = lowerLimit := by
  have hlimit : (⟨1, -10⟩ : Decimal).pattern double = lowerLimit := by decide +kernel
  rw [← hlimit]
  refine Decimal.pattern_congr ?_
  rw [h, Decimal.value, Nat.cast_one, one_mul]

theorem pattern_of_value_upper {d : Decimal} (h : d.value = 10 ^ (12 : ℤ)) :
    d.pattern double = upperLimit :=
  Decimal.pattern_eq (by decide) (by rw [h, magnitude_upperLimit])

theorem magnitude_lt_of_small (h : code < lowerLimit) :
    double.magnitude code < 10 ^ (-10 : ℤ) := by
  by_contra hle
  have hvalue : (⟨1, -10⟩ : Decimal).value = 10 ^ (-10 : ℤ) := by
    rw [Decimal.value, Nat.cast_one, one_mul]
  have hlimit := Decimal.pattern_le (le_trans (le_of_eq hvalue) (le_of_not_gt hle))
  rw [pattern_of_value_lower hvalue] at hlimit
  omega

/-- The doubles below the limits are nearer to them than the last digit that is shown. -/
theorem units_limits :
    (10 ^ 7 - 1) * double.unitDenominator ≤ double.units (lowerLimit - 1) * 10 ^ 17 ∧
      (10 ^ 12 - 1) * double.unitDenominator ≤ double.units (upperLimit - 1) * 1 ∧
      1 * double.unitDenominator ≤ double.units lowerLimit * 10 ^ 10 := by
  decide +kernel

/-- Below the lower limit rounding reaches it, or the double that is read stays
below it. -/
theorem pattern_of_small (hpos : 0 < code) (h : code < lowerLimit) :
    (Double.roundedTo 7 code).value = 10 ^ (-10 : ℤ) ∨
      (Double.roundedTo 7 code).pattern double < lowerLimit := by
  refine (Decimal.value_significant_le (by decide) (double.units_pos hpos)
    double.unitDenominator_natPos (magnitude_lt_of_small h)).imp_right (fun hle => ?_)
  have hbound : (10 : ℚ) ^ (-10 : ℤ) - 10 ^ (-10 - 7 : ℤ) ≤
      double.magnitude (lowerLimit - 1) := by
    have hbelow := double.le_magnitude_of (lowerLimit - 1) (10 ^ 7 - 1)
      (by decide : 0 < 10 ^ 17) units_limits.1
    norm_num at hbelow ⊢
    exact hbelow
  have hpattern := Decimal.pattern_le (le_trans hle hbound)
  have hlimit : 0 < lowerLimit := by decide
  change (Double.roundedTo 7 code).pattern double ≤ _ at hpattern
  omega

/-- Below the upper limit too. -/
theorem pattern_of_medium (hpos : 0 < code) (h : code < upperLimit) :
    (Double.roundedTo 12 code).value = 10 ^ (12 : ℤ) ∨
      (Double.roundedTo 12 code).pattern double < upperLimit := by
  have hless := double.magnitude_strictMono h
  rw [magnitude_upperLimit] at hless
  refine (Decimal.value_significant_le (by decide) (double.units_pos hpos)
    double.unitDenominator_natPos hless).imp_right (fun hle => ?_)
  have hbound : (10 : ℚ) ^ (12 : ℤ) - 10 ^ (12 - 12 : ℤ) ≤
      double.magnitude (upperLimit - 1) := by
    have hbelow := double.le_magnitude_of (upperLimit - 1) (10 ^ 12 - 1)
      (by decide : 0 < 1) units_limits.2.1
    norm_num at hbelow ⊢
    exact hbelow
  have hpattern := Decimal.pattern_le (le_trans hle hbound)
  have hlimit : 0 < upperLimit := by decide
  change (Double.roundedTo 12 code).pattern double ≤ _ at hpattern
  omega

theorem value_ge_of_medium (h : lowerLimit ≤ code) :
    (10 : ℚ) ^ (-10 : ℤ) ≤ (Double.roundedTo 12 code).value := by
  have hpos : 0 < code := Nat.lt_of_lt_of_le (by decide) h
  refine Decimal.le_value_significant (by decide) (double.units_pos hpos)
    double.unitDenominator_natPos (le_trans ?_ (double.magnitude_strictMono.monotone h))
  have hlimit := double.le_magnitude_of lowerLimit 1 (by decide : 0 < 10 ^ 10)
    units_limits.2.2
  norm_num at hlimit ⊢
  exact hlimit

theorem lowerLimit_le_pattern (h : lowerLimit ≤ code) :
    lowerLimit ≤ (Double.roundedTo 12 code).pattern double := by
  have hvalue : (⟨1, -10⟩ : Decimal).value = 10 ^ (-10 : ℤ) := by
    rw [Decimal.value, Nat.cast_one, one_mul]
  rw [← pattern_of_value_lower hvalue]
  exact Decimal.pattern_mono (le_trans (le_of_eq hvalue) (value_ge_of_medium h))

theorem exponent_of_medium (h : lowerLimit ≤ code) :
    -322 ≤ (Double.roundedTo 12 code).exponent := by
  have hpos : 0 < code := Nat.lt_of_lt_of_le (by decide) h
  have hexponent := Double.lt_exponent_roundedTo (by decide) hpos (value_ge_of_medium h)
  omega

/-! ### The text of what is read -/

/-- Rounding carries the magnitude over a limit. -/
def Carried (code : ℕ) : Prop :=
  code < lowerLimit ∧ (Double.roundedTo 7 code).value = 10 ^ (-10 : ℤ) ∨
    code < upperLimit ∧ ¬ Whole code ∧ (Double.roundedTo 12 code).value = 10 ^ (12 : ℤ)

/-- Only exponential notation has the letter of an exponent. -/
theorem magnitudeText_ne {other : ℕ} (h : Powered code) (hother : ¬ Powered other) :
    magnitudeText code ≠ magnitudeText other := by
  intro heq
  have hmem : 'e' ∈ magnitudeText code := by
    rw [magnitudeText, if_pos h, poweredText]
    simp
  rw [heq, magnitudeText, if_neg hother] at hmem
  split at hmem
  · exact absurd (isDigit_of_mem_numeral hmem) (by decide)
  · exact absurd (Token.inMantissa_of_mem_positional hmem) (by decide)

theorem magnitudeText_of_powered {other : ℕ} (h : Powered code) (hother : Powered other)
    (hrounded : Double.roundedTo 7 other = Double.roundedTo 7 code) :
    magnitudeText other = magnitudeText code := by
  rw [magnitudeText, magnitudeText, if_pos h, if_pos hother, hrounded]

theorem readBack_of_large (hfinite : code < double.top) (h : upperLimit ≤ code) :
    magnitudeText ((readBack code).pattern double) = magnitudeText code ↔ ¬ Carried code := by
  have hpowered : Powered code := Or.inl h
  have hpos := powered_pos hpowered
  rw [pattern_readBack_of_powered hpowered]
  have hagain := Double.roundedTo_pattern (by decide) (by decide) hpos
    (Double.pattern_roundedTo_lt_top hpos hfinite) (Or.inr rfl)
  refine iff_of_true (magnitudeText_of_powered hpowered (Or.inl (le_pattern_of_large h)) hagain)
    ?_
  have hlimits : lowerLimit < upperLimit := by decide
  rintro (⟨hlower, -⟩ | ⟨hupper, -⟩) <;> omega

theorem readBack_of_small (hfinite : code < double.top) (hpos : 0 < code)
    (h : code < lowerLimit) :
    magnitudeText ((readBack code).pattern double) = magnitudeText code ↔ ¬ Carried code := by
  have hpowered : Powered code := Or.inr ⟨hpos, h⟩
  have htop := Double.pattern_roundedTo_lt_top hpos hfinite
  rw [pattern_readBack_of_powered hpowered]
  rcases pattern_of_small hpos h with hcarry | hbelow
  · have hlimit : ¬ Powered lowerLimit := by decide
    rw [pattern_of_value_lower hcarry]
    exact iff_of_false (Ne.symm (magnitudeText_ne hpowered hlimit))
      (fun hnot => hnot (Or.inl ⟨h, hcarry⟩))
  · have hpos' := Double.pattern_roundedTo_pos (by decide) hpos htop
    have hagain := Double.roundedTo_pattern (by decide) (by decide) hpos htop (Or.inr rfl)
    refine iff_of_true
      (magnitudeText_of_powered hpowered (Or.inr ⟨hpos', hbelow⟩) hagain) ?_
    rintro (⟨-, hvalue⟩ | ⟨-, -, hvalue⟩)
    · rw [pattern_of_value_lower hvalue] at hbelow
      exact lt_irrefl _ hbelow
    · have hone : double.magnitude code < 10 ^ (0 : ℤ) :=
        lt_of_lt_of_le (magnitude_lt_of_small h) (zpow_le_zpow_right₀ (by norm_num) (by decide))
      have hsmall := Decimal.value_significant_le (by decide : 0 < 12) (double.units_pos hpos)
        double.unitDenominator_natPos hone
      change (Double.roundedTo 12 code).value = _ ∨ (Double.roundedTo 12 code).value ≤ _ at hsmall
      rw [hvalue] at hsmall
      norm_num at hsmall

theorem readBack_of_whole (hfinite : code < double.top) (h : ¬ Powered code)
    (hwhole : Whole code) :
    magnitudeText ((readBack code).pattern double) = magnitudeText code ↔ ¬ Carried code := by
  rw [pattern_readBack_of_whole h hwhole hfinite]
  refine iff_of_true rfl ?_
  rintro (⟨hlower, hvalue⟩ | ⟨-, hnot, -⟩)
  · have hzero : code = 0 := by
      by_contra hne
      exact h (Or.inr ⟨Nat.pos_of_ne_zero hne, hlower⟩)
    have hcoefficient : (Double.roundedTo 7 0).coefficient = 0 := by decide +kernel
    rw [hzero, Decimal.value, hcoefficient, Nat.cast_zero, zero_mul] at hvalue
    norm_num at hvalue
  · exact hnot hwhole

theorem readBack_of_medium (h : ¬ Powered code) (hwhole : ¬ Whole code) :
    magnitudeText ((readBack code).pattern double) = magnitudeText code ↔ ¬ Carried code := by
  have hpos := not_whole_pos hwhole
  obtain ⟨hlower, hupper⟩ := (not_powered_iff hpos).mp h
  rw [pattern_readBack_of_not_whole h hwhole]
  rcases pattern_of_medium hpos hupper with hcarry | hbelow
  · have hlimit : Powered upperLimit := by decide
    rw [pattern_of_value_upper hcarry]
    exact iff_of_false (magnitudeText_ne hlimit h)
      (fun hnot => hnot (Or.inr ⟨hupper, hwhole, hcarry⟩))
  · have habove := lowerLimit_le_pattern hlower
    have hpos' : 0 < (Double.roundedTo 12 code).pattern double :=
      Nat.lt_of_lt_of_le (by decide) habove
    have hagain := Double.roundedTo_pattern (by decide) (by decide) hpos
      (Nat.lt_trans hbelow (by decide)) (Or.inl (exponent_of_medium hlower))
    refine iff_of_true ?_ ?_
    · rw [magnitudeText, if_neg ((not_powered_iff hpos').mpr ⟨habove, hbelow⟩)]
      rw [magnitudeText, if_neg h, if_neg hwhole]
      split
      · next hwhole' => rw [positional_shortest_of_whole hwhole' hpos' hbelow]
      · rw [hagain]
    · rintro (⟨hless, -⟩ | ⟨-, -, hvalue⟩)
      · omega
      · rw [pattern_of_value_upper hvalue] at hbelow
        exact lt_irrefl _ hbelow

theorem magnitudeText_readBack (hfinite : code < double.top) :
    magnitudeText ((readBack code).pattern double) = magnitudeText code ↔ ¬ Carried code := by
  by_cases hpowered : Powered code
  · rcases hpowered with hlarge | ⟨hpos, hsmall⟩
    · exact readBack_of_large hfinite hlarge
    · exact readBack_of_small hfinite hpos hsmall
  by_cases hwhole : Whole code
  · exact readBack_of_whole hfinite hpowered hwhole
  · exact readBack_of_medium hpowered hwhole

theorem pattern_readBack_pos (hfinite : code < double.top) (hpos : 0 < code) :
    0 < (readBack code).pattern double := by
  have htop := pattern_readBack_lt_top hfinite
  by_cases hpowered : Powered code
  · rw [pattern_readBack_of_powered hpowered] at htop ⊢
    exact Double.pattern_roundedTo_pos (by decide) hpos htop
  by_cases hwhole : Whole code
  · rwa [pattern_readBack_of_whole hpowered hwhole hfinite]
  · rw [pattern_readBack_of_not_whole hpowered hwhole] at htop ⊢
    exact Double.pattern_roundedTo_pos (by decide) hpos htop

end Magnitude

/-! ### Results -/

/-- Rounding carries the number over a limit between two notations: up to
`10 ^ (-10)` with seven significant digits, or up to `10 ^ 12` with twelve. -/
def Carries (v : Float) : Prop :=
  v.abs < 1e-10 ∧
      (Decimal.significant 7 (Double.units v) double.unitDenominator).value = 10 ^ (-10 : ℤ) ∨
    v.abs < 1e12 ∧ Double.isWhole v = false ∧
      (Decimal.significant 12 (Double.units v) double.unitDenominator).value = 10 ^ (12 : ℤ)

theorem carries_iff {v : Float} (h : v.isFinite = true) :
    Carries v ↔ Carried (Double.pattern v) := by
  rw [Carries, Carried, abs_lt_lowerLimit h, (abs_upperLimit h).1, ← isWhole_iff h,
    Bool.not_eq_true]
  rfl

theorem ofFloat_eq_value {v : Float} (h : v.isFinite = true) :
    Outcome.ofFloat v = .value v := by
  have hinf : v.isInf = false := by
    rw [Double.isInf_eq]
    exact decide_eq_false (Nat.ne_of_lt (Double.pattern_lt_top h))
  simp only [Outcome.ofFloat, Double.isNaN_of_isFinite h, hinf, Bool.false_eq_true, if_false]

theorem signed_inj {negative : Bool} {left right : List Char} :
    signed negative left = signed negative right ↔ left = right := by
  cases negative <;> simp [signed]

/-- The text of a finite number evaluates to a number, and that number has the same
text exactly when rounding carried nothing over a limit. -/
theorem evaluate_number (mode : AngleMode) {v : Float} (h : v.isFinite = true) :
    number v ≠ errorText ∧
      ∃ r : Float, evaluate mode (number v) = .value r ∧
        (number r = number v ↔ ¬ Carries v) := by
  have hfinite := Double.pattern_lt_top h
  have htop := pattern_readBack_lt_top hfinite
  obtain ⟨negative, hnegative⟩ :
      ∃ negative, negative = (Double.negative v && decide (0 < Double.pattern v)) := ⟨_, rfl⟩
  obtain ⟨r, hr⟩ : ∃ r, r = (readBack (Double.pattern v)).toDouble negative := ⟨_, rfl⟩
  have hrpattern : Double.pattern r = (readBack (Double.pattern v)).pattern double := by
    rw [hr]
    exact Double.pattern_ofPattern negative (Nat.le_of_lt htop)
  have hrnegative : Double.negative r = negative := by
    rw [hr]
    exact Double.negative_ofPattern negative (Nat.le_of_lt htop)
  have hrfinite : r.isFinite = true := by
    rw [Double.isFinite_eq, hrpattern]
    exact decide_eq_true htop
  have hnumber : number v = signed negative (magnitudeText (Double.pattern v)) := by
    rw [hnegative, number_eq h]
  have hvalue : evaluate mode (number v) = .value r := by
    rw [hnumber, evaluate_signed mode negative (readsAs_magnitudeText _), ← hr,
      ofFloat_eq_value hrfinite]
  have hsign : (Double.negative r && decide (0 < Double.pattern r)) = negative := by
    rw [hrnegative, hrpattern]
    cases hcases : negative with
    | false => rfl
    | true =>
        rw [hcases] at hnegative
        have hpos := (Bool.and_eq_true _ _).mp hnegative.symm |>.2
        rw [decide_eq_true (pattern_readBack_pos hfinite (of_decide_eq_true hpos))]
        rfl
  refine ⟨?_, r, hvalue, ?_⟩
  · intro herror
    rw [herror] at hvalue
    have hmalformed : evaluate mode errorText =
        .malformed (.unknownWord ['r', 'r', 'o', 'r']) := by
      cases mode <;> decide +kernel
    rw [hmalformed] at hvalue
    contradiction
  · rw [number_eq hrfinite, hsign, hnumber, signed_inj, hrpattern, carries_iff h]
    exact magnitudeText_readBack hfinite

/-- A number just within the upper limit is shown as the limit, and the limit is
shown in exponential notation. -/
theorem evaluate_number_below_limit :
    (-999999999999.9999 : Float).isFinite = true ∧
      ∃ r : Float, evaluate .degrees (number (-999999999999.9999)) = .value r ∧
        number r ≠ number (-999999999999.9999) := by
  have hfinite : (-999999999999.9999 : Float).isFinite = true := by decide +kernel
  have hcarries : Carries (-999999999999.9999) := by
    refine Or.inr ⟨by decide +kernel, by decide +kernel, ?_⟩
    have hrounded : Decimal.significant 12 (Double.units (-999999999999.9999))
        double.unitDenominator = ⟨10 ^ 11, 1⟩ := by decide +kernel
    rw [hrounded, Decimal.value]
    norm_num
  obtain ⟨-, r, hvalue, hsame⟩ := evaluate_number .degrees hfinite
  exact ⟨hfinite, r, hvalue, fun heq => hsame.mp heq hcarries⟩

end GraphCalc.Display
