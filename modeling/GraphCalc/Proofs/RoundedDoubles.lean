/-
Doubles rounded to significant digits.  Reading the rounded decimal gives a double
that is rounded to the same decimal, down to the least doubles, where a unit of the
seventh digit is smaller than the distance between two of them.
-/
import GraphCalc.Proofs.SignificantDigits
namespace GraphCalc

namespace Layout

theorem unitDenominator_natPos (layout : Layout) : 0 < layout.unitDenominator :=
  Nat.two_pow_pos _

theorem units_pos (layout : Layout) {code : ℕ} (h : 0 < code) : 0 < layout.units code := by
  have hlt := layout.units_strictMono h
  rwa [units_zero] at hlt

theorem le_magnitude_of (layout : Layout) (code a : ℕ) {b : ℕ} (hb : 0 < b)
    (h : a * layout.unitDenominator ≤ layout.units code * b) :
    (a : ℚ) / b ≤ layout.magnitude code := by
  have hpos : (0 : ℚ) < b := Nat.cast_pos.mpr hb
  rw [magnitude, div_le_div_iff₀ hpos layout.unitDenominator_pos, ← Nat.cast_mul,
    ← Nat.cast_mul]
  exact Nat.cast_le.mpr h

theorem magnitude_le_of (layout : Layout) (code a : ℕ) {b : ℕ} (hb : 0 < b)
    (h : layout.units code * b ≤ a * layout.unitDenominator) :
    layout.magnitude code ≤ (a : ℚ) / b := by
  have hpos : (0 : ℚ) < b := Nat.cast_pos.mpr hb
  rw [magnitude, div_le_div_iff₀ layout.unitDenominator_pos hpos, ← Nat.cast_mul,
    ← Nat.cast_mul]
  exact Nat.cast_le.mpr h

/-- Two magnitudes differ by a unit at least. -/
theorem one_div_le_sub (layout : Layout) {code other : ℕ} (h : code < other) :
    1 / (layout.unitDenominator : ℚ) ≤ layout.magnitude other - layout.magnitude code := by
  rw [magnitude, magnitude, ← sub_div]
  refine div_le_div_of_nonneg_right ?_ (le_of_lt layout.unitDenominator_pos)
  have hsucc : (layout.units code : ℚ) + 1 ≤ layout.units other := by
    exact_mod_cast layout.units_strictMono h
  linarith

end Layout

namespace Double

open Layout (double)

/-- A magnitude rounded to significant digits. -/
def roundedTo (digits code : ℕ) : Decimal :=
  Decimal.significant digits (double.units code) double.unitDenominator

section Rounded
variable {digits code : ℕ}

theorem value_roundedTo_near (hdigits : 0 < digits) (hcode : 0 < code) :
    |(roundedTo digits code).value - double.magnitude code| ≤
      10 ^ (roundedTo digits code).exponent / 2 :=
  Decimal.abs_significant_sub_le hdigits (double.units_pos hcode) double.unitDenominator_natPos

theorem roundedTo_coefficient (hdigits : 0 < digits) (hcode : 0 < code) :
    10 ^ (digits - 1) ≤ (roundedTo digits code).coefficient ∧
      (roundedTo digits code).coefficient < 10 ^ digits :=
  Decimal.significant_coefficient hdigits (double.units_pos hcode) double.unitDenominator_natPos

/-- The last digit of a rounded magnitude is not far below its first one. -/
theorem lt_exponent_roundedTo (hdigits : 0 < digits) (hcode : 0 < code) {k : ℤ}
    (h : (10 : ℚ) ^ k ≤ (roundedTo digits code).value) :
    k - digits < (roundedTo digits code).exponent := by
  have hlast := (roundedTo_coefficient hdigits hcode).2
  have hcast : ((roundedTo digits code).coefficient : ℚ) < 10 ^ (digits : ℤ) := by
    rw [zpow_natCast]
    exact_mod_cast hlast
  have hless := mul_lt_mul_of_pos_right hcast
    (by positivity : (0 : ℚ) < 10 ^ (roundedTo digits code).exponent)
  rw [← zpow_add₀ (by norm_num)] at hless
  have hexponent := (zpow_lt_zpow_iff_right₀ (by norm_num : (1 : ℚ) < 10)).mp
    (lt_of_le_of_lt h hless)
  omega

/-- A positive double is not rounded so far that it reads back as zero. -/
theorem pattern_roundedTo_pos (hdigits : 0 < digits) (hcode : 0 < code)
    (hfinite : (roundedTo digits code).pattern double < double.top) :
    0 < (roundedTo digits code).pattern double := by
  have herror := Decimal.abs_significant_sub_lt hdigits (double.units_pos hcode)
    double.unitDenominator_natPos
  have hnear := Decimal.abs_pattern_sub_le hfinite code
  rw [abs_sub_comm (double.magnitude code)] at hnear
  have hless := lt_of_le_of_lt hnear herror
  refine Nat.pos_of_ne_zero (fun hzero => ?_)
  rw [hzero, Layout.magnitude_zero, zero_sub, abs_neg,
    abs_of_nonneg (Decimal.value_nonneg _)] at hless
  exact lt_irrefl _ hless

/-- Reading is accurate enough to tell the digits of a decimal that is not too
small. -/
theorem reading_error {d : Decimal} (hdigits : 0 < digits) (hbound : digits ≤ 15)
    (hfinite : d.pattern double < double.top) (hcoefficient : d.coefficient = 10 ^ (digits - 1))
    (hexponent : -322 ≤ d.exponent) :
    |double.magnitude (d.pattern double) - d.value| ≤ 10 ^ (d.exponent - 1) / 2 := by
  refine le_trans (Decimal.abs_pattern_sub_le_max hfinite) (max_le ?_ ?_)
  · have hunit : (10 ^ 323 : ℚ) ≤ double.unitDenominator := by
      have hcast : ((10 ^ 323 : ℕ) : ℚ) ≤ double.unitDenominator :=
        Nat.cast_le.mpr Decimal.unitDenominator_bounds.1
      rwa [Nat.cast_pow, Nat.cast_ofNat] at hcast
    have hpower : (10 ^ 323 : ℚ)⁻¹ ≤ 10 ^ (d.exponent - 1) := by
      rw [← zpow_natCast, ← zpow_neg]
      exact zpow_le_zpow_right₀ (by norm_num) (by push_cast; omega)
    have hinverse : (double.unitDenominator : ℚ)⁻¹ ≤ (10 ^ 323)⁻¹ :=
      inv_anti₀ (by positivity) hunit
    rw [div_right_comm, one_div]
    exact div_le_div_of_nonneg_right (le_trans hinverse hpower) (by norm_num)
  · have hpower : (10 : ℚ) ^ (digits - 1) * 10 ≤ 10 ^ 15 := by
      rw [← pow_succ]
      exact pow_le_pow_right₀ (by norm_num) (by omega)
    have hstep : (10 : ℚ) ^ d.exponent = 10 * 10 ^ (d.exponent - 1) := by
      rw [mul_comm, ← zpow_add_one₀ (by norm_num), sub_add_cancel]
    have hpos : (0 : ℚ) < 10 ^ (d.exponent - 1) := by positivity
    rw [Decimal.value, hcoefficient, hstep, div_le_div_iff₀ (by norm_num) (by norm_num)]
    push_cast
    nlinarith

/-- The one power of ten for which the accuracy does not suffice is read as a double
above it. -/
theorem value_le_reading : (⟨10 ^ 6, -323⟩ : Decimal).value ≤
    double.magnitude ((⟨10 ^ 6, -323⟩ : Decimal).pattern double) := by
  rw [Decimal.value_eq]
  exact double.le_magnitude_of _ _ (Decimal.denominator_pos _) (by decide +kernel)

/-- Below it two doubles are farther apart than the units of the last digit. -/
theorem not_lt_of_small {e : ℤ} (he : e ≤ -324) {v : ℚ} {other : ℕ}
    (hother : |v - double.magnitude other| ≤ 10 ^ e / 2)
    (hcode : |v - double.magnitude code| ≤ 10 ^ e / 2) :
    ¬ double.magnitude other < double.magnitude code := by
  intro hlt
  have hless := double.one_div_le_sub (double.magnitude_strictMono.lt_iff_lt.mp hlt)
  have hunit : (double.unitDenominator : ℚ) < 10 ^ 324 := by
    have hcast : (double.unitDenominator : ℚ) < (10 ^ 324 : ℕ) :=
      Nat.cast_lt.mpr (Nat.lt_of_le_of_lt (Nat.le_mul_of_pos_left _ Nat.two_pos)
        Decimal.unitDenominator_bounds.2)
    rwa [Nat.cast_pow, Nat.cast_ofNat] at hcast
  have hinverse : (10 ^ 324 : ℚ)⁻¹ < 1 / double.unitDenominator := by
    rw [one_div]
    exact inv_strictAnti₀ double.unitDenominator_pos hunit
  have hpower : (10 : ℚ) ^ e ≤ (10 ^ 324)⁻¹ := by
    rw [← zpow_natCast, ← zpow_neg]
    exact zpow_le_zpow_right₀ (by norm_num) he
  have hsum := abs_sub_le (double.magnitude code) v (double.magnitude other)
  rw [abs_sub_comm (double.magnitude code) v] at hsum
  have hself := le_abs_self (double.magnitude code - double.magnitude other)
  have hless' := lt_of_le_of_lt hpower (lt_of_lt_of_le hinverse hless)
  linarith only [hself, hsum, hother, hcode, hless']

/-- A power of ten rounded to a small unit of the seventh digit is not read as a
double below it. -/
theorem value_le_reading_of_small (hcode : 0 < code)
    (hfinite : (roundedTo 7 code).pattern double < double.top)
    (hcoefficient : (roundedTo 7 code).coefficient = 10 ^ 6)
    (hexponent : (roundedTo 7 code).exponent < -322)
    (hle : (roundedTo 7 code).value ≤ double.magnitude code) :
    (roundedTo 7 code).value ≤
      double.magnitude ((roundedTo 7 code).pattern double) := by
  have hnear := Decimal.abs_pattern_sub_le hfinite code
  have hcode' := value_roundedTo_near (by decide : 0 < 7) hcode
  revert hfinite hcoefficient hexponent hle hnear hcode'
  generalize roundedTo 7 code = d
  intro hfinite hcoefficient hexponent hle hnear hcode'
  obtain ⟨coefficient, exponent⟩ := d
  by_cases hlimit : exponent = -323
  · obtain rfl : coefficient = 10 ^ 6 := hcoefficient
    subst hlimit
    exact value_le_reading
  · rw [abs_sub_comm, abs_sub_comm (double.magnitude code)] at hnear
    have hexponent' : exponent ≤ -324 := by
      change exponent < -322 at hexponent
      omega
    have hfar := not_lt_of_small hexponent' (le_trans hnear hcode') hcode'
    by_contra hlt
    exact hfar (lt_of_lt_of_le (lt_of_not_ge hlt) hle)

/-- Reading a rounded decimal gives a double that is rounded to it again. -/
theorem roundedTo_pattern (hdigits : 2 ≤ digits) (hbound : digits ≤ 15) (hcode : 0 < code)
    (hfinite : (roundedTo digits code).pattern double < double.top)
    (hsmall : -322 ≤ (roundedTo digits code).exponent ∨ digits = 7) :
    roundedTo digits ((roundedTo digits code).pattern double) = roundedTo digits code := by
  have hpos := pattern_roundedTo_pos (by omega) hcode hfinite
  have hnear := Decimal.abs_pattern_sub_le hfinite code
  rw [abs_sub_comm, abs_sub_comm (double.magnitude code)] at hnear
  refine Decimal.significant_of_near hdigits (double.units_pos hcode)
    double.unitDenominator_natPos (double.units_pos hpos) double.unitDenominator_natPos
    hnear ?_
  intro hlt hle hcoefficient
  by_cases hexponent : -322 ≤ (roundedTo digits code).exponent
  · have herror := reading_error (by omega) hbound hfinite hcoefficient hexponent
    rw [abs_sub_comm] at herror
    exact le_trans (le_abs_self _) herror
  · obtain rfl : digits = 7 := hsmall.resolve_left hexponent
    have habove := value_le_reading_of_small hcode hfinite hcoefficient
      (lt_of_not_ge hexponent) hle
    exact absurd hlt (not_lt_of_ge habove)

/-- The greatest double keeps its first seven digits when it is rounded to them. -/
theorem value_le_greatest (hcode : 0 < code) (hfinite : code < double.top) :
    (roundedTo 7 code).value ≤ double.magnitude (double.top - 1) := by
  have hn := double.units_pos hcode
  have hd := double.unitDenominator_natPos
  have hgreatest : double.magnitude code ≤ double.magnitude (double.top - 1) :=
    double.magnitude_strictMono.monotone (by omega)
  have hupper := double.magnitude_le_of (double.top - 1) (17976934 * 10 ^ 302)
    (by decide : 0 < 10) (by decide +kernel)
  have hlower := double.le_magnitude_of (double.top - 1) (1797693 * 10 ^ 302)
    (by decide : 0 < 1) (by decide +kernel)
  rw [Nat.cast_mul, Nat.cast_pow, Nat.cast_ofNat, Nat.cast_ofNat] at hupper hlower
  rw [Nat.cast_one, div_one] at hlower
  have hdecade : (10 : ℚ) ^ (308 : ℤ) = 10 ^ 6 * 10 ^ 302 := by
    rw [zpow_ofNat]
    exact pow_add 10 6 302
  have hgrid : (10 : ℚ) ^ (308 - 7 + 1 : ℤ) = 10 ^ 302 := zpow_ofNat 10 302
  obtain ⟨e, m, hle, hlt, hround, heq⟩ := Decimal.exists_significant 7 hn hd
  have hlast := (Decimal.coefficient_bounds (by decide) hle hlt hround).2
  have hvalue := Decimal.value_onDecade (by decide : 0 < 7) e m
  rw [← heq] at hvalue
  change double.magnitude code < _ at hlt
  change _ ≤ double.magnitude code at hle
  change RoundsTo (double.magnitude code / _) m at hround
  change (roundedTo 7 code).value = _ at hvalue
  refine le_trans ?_ hlower
  rw [hvalue]
  have hpos : (0 : ℚ) < 10 ^ 302 := by positivity
  revert hupper hdecade hgrid hpos
  generalize (10 : ℚ) ^ 302 = unit
  intro hupper hdecade hgrid hpos
  by_cases hbelow : e < 308
  · have hpower : (10 : ℚ) ^ (e + 1) ≤ 10 ^ (308 : ℤ) :=
      zpow_le_zpow_right₀ (by norm_num) (by omega)
    have hten := Decimal.ten_zpow_sub 7 (e + 1)
    have hexponent : e + 1 - (7 : ℕ) = e - (7 : ℕ) + 1 := by omega
    rw [hexponent] at hten
    have hcast : (m : ℚ) ≤ 10 ^ 7 := by exact_mod_cast hlast
    have hbound := mul_le_mul_of_nonneg_right hcast
      (by positivity : (0 : ℚ) ≤ 10 ^ (e - (7 : ℕ) + 1))
    rw [← hten] at hbound
    rw [hdecade] at hpower
    linarith only [hbound, hpower, hpos]
  · obtain rfl : e = 308 := by
      have hless : (10 : ℚ) ^ e < 10 ^ ((308 : ℤ) + 1) := by
        rw [zpow_add_one₀ (by norm_num), hdecade]
        linarith only [hle, hgreatest, hupper, hpos]
      have hexponent := (zpow_lt_zpow_iff_right₀ (by norm_num : (1 : ℚ) < 10)).mp hless
      omega
    rw [Nat.cast_ofNat, hgrid] at hround ⊢
    refine mul_le_mul_of_nonneg_right ?_ (le_of_lt hpos)
    have hnear := (Decimal.abs_of_roundsTo hpos hround).1
    have hless : (m : ℚ) * unit < 1797694 * unit := by
      have hself := (abs_le.mp hnear).2
      linarith only [hself, hgreatest, hupper, hpos]
    have hcoefficient : (m : ℚ) < (1797694 : ℕ) := by
      rw [Nat.cast_ofNat]
      exact lt_of_mul_lt_mul_right hless (le_of_lt hpos)
    exact_mod_cast Nat.le_of_lt_succ (Nat.cast_lt.mp hcoefficient)

theorem pattern_roundedTo_lt_top (hcode : 0 < code) (hfinite : code < double.top) :
    (roundedTo 7 code).pattern double < double.top := by
  have hle := Decimal.pattern_le (value_le_greatest hcode hfinite)
  have htop : 0 < double.top := by decide
  omega

end Rounded

end Double

end GraphCalc
