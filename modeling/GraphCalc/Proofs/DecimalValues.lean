/-
The values of decimals and the doubles nearest to them.  The pattern of a decimal
depends on its value alone, no magnitude is nearer to it, and the shortest decimal
of a double reads back to it.
-/
import GraphCalc.Decimal.Shortest
import GraphCalc.Proofs.Numerals
import GraphCalc.Proofs.Rounding
import Mathlib.Algebra.Order.Field.Power
namespace GraphCalc

namespace Layout

/-- The magnitude of a finite pattern. -/
def magnitude (layout : Layout) (code : ℕ) : ℚ :=
  (layout.units code : ℚ) / layout.unitDenominator

theorem unitDenominator_pos (layout : Layout) : (0 : ℚ) < layout.unitDenominator := by
  rw [unitDenominator]
  positivity

theorem magnitude_strictMono (layout : Layout) : StrictMono layout.magnitude := by
  intro code other h
  have hlt : (layout.units code : ℚ) < layout.units other := by
    exact_mod_cast layout.units_strictMono h
  exact div_lt_div_of_pos_right hlt layout.unitDenominator_pos

theorem magnitude_zero (layout : Layout) : layout.magnitude 0 = 0 := by
  rw [magnitude, units_zero, Nat.cast_zero, zero_div]

theorem magnitude_mul (layout : Layout) (code : ℕ) :
    layout.magnitude code * layout.unitDenominator = layout.units code :=
  div_mul_cancel₀ _ (ne_of_gt layout.unitDenominator_pos)

end Layout

namespace Decimal

/-- The number that a decimal stands for. -/
def value (d : Decimal) : ℚ :=
  d.coefficient * 10 ^ d.exponent

theorem value_nonneg (d : Decimal) : 0 ≤ d.value := by
  rw [value]
  positivity

theorem denominator_pos (d : Decimal) : 0 < d.denominator :=
  Nat.pow_pos (by decide)

/-- A power of ten as a quotient of two. -/
theorem ten_zpow_eq (e : ℤ) : (10 : ℚ) ^ e = 10 ^ e.toNat / 10 ^ (-e).toNat := by
  rcases Int.le_total 0 e with hnonneg | hneg
  · have hzero : (-e).toNat = 0 := by omega
    rw [hzero, pow_zero, div_one, ← zpow_natCast, Int.toNat_of_nonneg hnonneg]
  · have hzero : e.toNat = 0 := by omega
    rw [hzero, pow_zero, one_div, ← zpow_natCast, Int.toNat_of_nonneg (by omega), zpow_neg,
      inv_inv]

theorem value_eq (d : Decimal) : d.value = (d.numerator : ℚ) / d.denominator := by
  rw [value, ten_zpow_eq, numerator, denominator]
  push_cast
  ring

theorem value_writtenOut (d : Decimal) : d.writtenOut.value = d.value := by
  rw [writtenOut]
  by_cases hwhole : 0 ≤ d.exponent
  · rw [if_pos hwhole, value, value, zpow_zero, mul_one, Nat.cast_mul, Nat.cast_pow,
      ← zpow_natCast, Int.toNat_of_nonneg hwhole]
    rfl
  · rw [if_neg hwhole]

theorem inUnits_eq_value (layout : Layout) (d : Decimal) :
    layout.inUnits d.numerator d.denominator = d.value * layout.unitDenominator := by
  rw [Layout.inUnits, value_eq]

/-! ### The nearest double -/

theorem nearest_of_coefficient_eq_zero {d : Decimal} (h : d.coefficient = 0) :
    Layout.double.nearest d.numerator d.denominator = 0 := by
  refine Nat.le_zero.mp (Layout.nearest_le (by decide) d.denominator_pos ?_)
  rw [inUnits_eq_value, Layout.units_zero, value, h, Nat.cast_zero, zero_mul, zero_mul]

/-- The least positive double and its half lie between two powers of ten. -/
theorem unitDenominator_bounds :
    10 ^ 323 ≤ Layout.double.unitDenominator ∧ 2 * Layout.double.unitDenominator < 10 ^ 324 := by
  decide +kernel

/-- From `10 ^ 400` up every finite double is too small. -/
theorem nearest_of_large {d : Decimal} (hpos : d.coefficient ≠ 0) (h : 400 < d.exponent) :
    Layout.double.nearest d.numerator d.denominator = Layout.double.top := by
  refine Nat.le_antisymm (Nat.min_le_left _ _)
    (Layout.le_nearest (by decide) d.denominator_pos (Nat.le_refl _) ?_)
  have hone : (1 : ℚ) ≤ d.coefficient := by exact_mod_cast Nat.one_le_iff_ne_zero.mpr hpos
  have hpow : (10 : ℚ) ^ (401 : ℕ) ≤ 10 ^ d.exponent := by
    rw [← zpow_natCast]
    exact zpow_le_zpow_right₀ (by norm_num) h
  have hvalue : (10 : ℚ) ^ (401 : ℕ) ≤ d.value :=
    le_trans hpow (le_mul_of_one_le_left (by positivity) hone)
  have htop : Layout.double.units Layout.double.top ≤
      10 ^ 401 * Layout.double.unitDenominator := by decide +kernel
  have htop' : (Layout.double.units Layout.double.top : ℚ) ≤
      (10 ^ 401 * Layout.double.unitDenominator : ℕ) := Nat.cast_le.mpr htop
  rw [Nat.cast_mul, Nat.cast_pow, Nat.cast_ofNat] at htop'
  rw [inUnits_eq_value]
  exact le_trans htop'
    (mul_le_mul_of_nonneg_right hvalue (le_of_lt Layout.double.unitDenominator_pos))

/-- Below `10 ^ (-400)` a number is less than half the least positive double. -/
theorem inUnits_of_small {d : Decimal}
    (h : d.exponent + (d.coefficient.log2 + 1) < -400) :
    Layout.double.inUnits d.numerator d.denominator < 1 / 2 := by
  have hcoefficient : (d.coefficient : ℚ) ≤ 10 ^ (d.coefficient.log2 + 1) := by
    have hlog : d.coefficient < 2 ^ (d.coefficient.log2 + 1) := Nat.lt_log2_self
    have hpow : 2 ^ (d.coefficient.log2 + 1) ≤ 10 ^ (d.coefficient.log2 + 1) :=
      Nat.pow_le_pow_left (by decide) _
    exact_mod_cast Nat.le_trans (Nat.le_of_lt hlog) hpow
  have hvalue : d.value ≤ (10 ^ 401)⁻¹ := by
    calc d.value ≤ 10 ^ (d.coefficient.log2 + 1) * 10 ^ d.exponent :=
          mul_le_mul_of_nonneg_right hcoefficient (by positivity)
      _ = 10 ^ (d.exponent + (d.coefficient.log2 + 1 : ℕ)) := by
          rw [zpow_add₀ (by norm_num), zpow_natCast, mul_comm]
      _ ≤ 10 ^ (-401 : ℤ) := zpow_le_zpow_right₀ (by norm_num) (by push_cast; omega)
      _ = (10 ^ 401)⁻¹ := by rw [zpow_neg]; rfl
  have hpower : 10 ^ 324 ≤ 10 ^ 401 := pow_le_pow_right₀ (by decide) (by decide)
  have hleast := Nat.lt_of_lt_of_le unitDenominator_bounds.2 hpower
  have hleast' : (Layout.double.unitDenominator : ℚ) < 10 ^ 401 / 2 := by
    have hcast : ((2 * Layout.double.unitDenominator : ℕ) : ℚ) < (10 ^ 401 : ℕ) :=
      Nat.cast_lt.mpr hleast
    rwa [Nat.cast_mul, Nat.cast_pow, Nat.cast_ofNat, Nat.cast_ofNat,
      ← lt_div_iff₀' two_pos] at hcast
  have hbound : (10 ^ 401 : ℚ)⁻¹ * Layout.double.unitDenominator < 1 / 2 := by
    rwa [inv_mul_lt_iff₀ (by positivity), mul_one_div]
  rw [inUnits_eq_value]
  exact lt_of_le_of_lt
    (mul_le_mul_of_nonneg_right hvalue (le_of_lt Layout.double.unitDenominator_pos)) hbound

/-- There zero is the nearest double. -/
theorem nearest_of_small {d : Decimal}
    (h : d.exponent + (d.coefficient.log2 + 1) < -400) :
    Layout.double.nearest d.numerator d.denominator = 0 := by
  have hsmall := inUnits_of_small h
  have hunit : Layout.double.units 1 = 1 := rfl
  have hone : Layout.double.nearest d.numerator d.denominator ≤ 1 := by
    refine Layout.nearest_le (by decide) d.denominator_pos ?_
    rw [hunit, Nat.cast_one]
    linarith
  by_contra hzero
  have heq : Layout.double.nearest d.numerator d.denominator = 1 := by omega
  have hfinite : Layout.double.nearest d.numerator d.denominator < Layout.double.top := by
    rw [heq]
    decide
  have hnear := Layout.abs_nearest_sub_le (by decide) d.denominator_pos hfinite 0
  rw [heq, hunit, Layout.units_zero, Nat.cast_one, Nat.cast_zero, zero_sub, abs_neg,
    abs_of_nonneg (Layout.inUnits_nonneg _ _ _)] at hnear
  have hself := le_abs_self (1 - Layout.double.inUnits d.numerator d.denominator)
  linarith

/-- The sizes that are decided at once are decided as rounding decides them. -/
theorem pattern_eq_nearest (d : Decimal) :
    d.pattern Layout.double = Layout.double.nearest d.numerator d.denominator := by
  rw [pattern]
  split
  · next hzero => rw [nearest_of_coefficient_eq_zero hzero]
  split
  · next hzero hlarge => rw [nearest_of_large hzero hlarge]
  split
  · next hsmall => rw [nearest_of_small hsmall]
  · rfl

section Pattern
variable {d : Decimal} {code : ℕ}

theorem pattern_le_top (d : Decimal) : d.pattern Layout.double ≤ Layout.double.top := by
  rw [pattern_eq_nearest]
  exact Nat.min_le_left _ _

/-- Decimals of one value have one pattern. -/
theorem pattern_congr {other : Decimal} (h : d.value = other.value) :
    d.pattern Layout.double = other.pattern Layout.double := by
  rw [pattern_eq_nearest, pattern_eq_nearest]
  refine Layout.nearest_congr _ d.denominator_pos other.denominator_pos ?_
  have hpos : (0 : ℚ) < d.denominator := by exact_mod_cast d.denominator_pos
  have hpos' : (0 : ℚ) < other.denominator := by exact_mod_cast other.denominator_pos
  rw [value_eq, value_eq, div_eq_div_iff (ne_of_gt hpos) (ne_of_gt hpos')] at h
  exact_mod_cast h

/-- Reading keeps the order. -/
theorem pattern_mono {other : Decimal} (h : d.value ≤ other.value) :
    d.pattern Layout.double ≤ other.pattern Layout.double := by
  rw [pattern_eq_nearest, pattern_eq_nearest]
  refine Layout.nearest_mono (by decide) d.denominator_pos other.denominator_pos ?_
  rw [inUnits_eq_value, inUnits_eq_value]
  exact mul_le_mul_of_nonneg_right h (le_of_lt (Layout.unitDenominator_pos _))

theorem le_pattern (htop : code ≤ Layout.double.top)
    (h : Layout.double.magnitude code ≤ d.value) : code ≤ d.pattern Layout.double := by
  rw [pattern_eq_nearest]
  refine Layout.le_nearest (by decide) d.denominator_pos htop ?_
  rw [inUnits_eq_value, ← Layout.magnitude_mul]
  exact mul_le_mul_of_nonneg_right h (le_of_lt (Layout.unitDenominator_pos _))

theorem pattern_le (h : d.value ≤ Layout.double.magnitude code) :
    d.pattern Layout.double ≤ code := by
  rw [pattern_eq_nearest]
  refine Layout.nearest_le (by decide) d.denominator_pos ?_
  rw [inUnits_eq_value, ← Layout.magnitude_mul]
  exact mul_le_mul_of_nonneg_right h (le_of_lt (Layout.unitDenominator_pos _))

/-- A decimal that is a magnitude reads back to it. -/
theorem pattern_eq (htop : code ≤ Layout.double.top)
    (h : d.value = Layout.double.magnitude code) : d.pattern Layout.double = code :=
  Nat.le_antisymm (pattern_le (le_of_eq h)) (le_pattern htop (le_of_eq h.symm))

theorem abs_units_sub (code : ℕ) :
    |(Layout.double.units code : ℚ) - Layout.double.inUnits d.numerator d.denominator| =
      |Layout.double.magnitude code - d.value| * Layout.double.unitDenominator := by
  have hpos := Layout.double.unitDenominator_pos
  rw [inUnits_eq_value, ← Layout.magnitude_mul, ← sub_mul, abs_mul, abs_of_pos hpos]

/-- No double is nearer than the one that a decimal is read as. -/
theorem abs_pattern_sub_le (hfinite : d.pattern Layout.double < Layout.double.top)
    (other : ℕ) :
    |Layout.double.magnitude (d.pattern Layout.double) - d.value| ≤
      |Layout.double.magnitude other - d.value| := by
  rw [pattern_eq_nearest] at hfinite ⊢
  have hnear := Layout.abs_nearest_sub_le (by decide) d.denominator_pos hfinite other
  rw [abs_units_sub, abs_units_sub] at hnear
  exact le_of_mul_le_mul_right hnear Layout.double.unitDenominator_pos

/-- The error of reading a decimal. -/
theorem abs_pattern_sub_le_max (hfinite : d.pattern Layout.double < Layout.double.top) :
    |Layout.double.magnitude (d.pattern Layout.double) - d.value| ≤
      max ((1 : ℚ) / 2 / Layout.double.unitDenominator) (d.value / 2 ^ 53) := by
  rw [pattern_eq_nearest] at hfinite ⊢
  have hpos := Layout.double.unitDenominator_pos
  have herror := Layout.abs_nearest_sub_le_max (by decide) d.denominator_pos hfinite
  have hhalf : (2 : ℚ) * Layout.double.half = 2 ^ 53 := by
    have hnat : 2 * Layout.double.half = 2 ^ 53 := by decide
    exact_mod_cast hnat
  rw [abs_units_sub, hhalf, inUnits_eq_value, ← le_div_iff₀ hpos] at herror
  refine le_trans herror (le_of_eq ?_)
  rw [← max_div_div_right (le_of_lt hpos), mul_div_right_comm, mul_div_cancel_right₀]
  exact ne_of_gt hpos

end Pattern

end Decimal

namespace Layout

/-- The number written out in full is the magnitude. -/
theorem value_exact (layout : Layout) (code : ℕ) :
    (layout.exact code).value = layout.magnitude code := by
  have hten : (2 : ℚ) ^ layout.unit * 5 ^ layout.unit = 10 ^ layout.unit := by
    rw [← mul_pow]
    norm_num
  rw [exact, Decimal.value, magnitude, unitDenominator, zpow_neg, zpow_natCast, ← hten]
  push_cast
  field_simp

/-- The shortest decimal of a magnitude reads back to it. -/
theorem pattern_shortest {code : ℕ} (h : code ≤ Layout.double.top) :
    (Layout.double.shortest code).pattern Layout.double = code := by
  rw [shortest]
  split
  · next hzero => rw [hzero]; rfl
  · cases hfound : (List.range 20).findSome? (fun (step : ℕ) =>
        Layout.double.onGrid? code (Layout.double.coarsest code - step)) with
    | none => exact Decimal.pattern_eq h (value_exact _ code)
    | some d =>
        obtain ⟨step, -, hgrid⟩ := List.exists_of_findSome?_eq_some hfound
        exact pattern_of_onGrid? hgrid

example : Layout.double.shortest 0x3FB999999999999A = ⟨1, -1⟩ := by decide +kernel

end Layout

end GraphCalc
