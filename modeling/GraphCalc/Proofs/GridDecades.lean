/-
The decade of an extent.  It is told from the digits of the extent except at the very end
of a decade.  A rounded logarithm that is accurate gives the same decade everywhere, and
the power of ten there is the power of its floor.
-/
import GraphCalc.Proofs.GridSteps
import Mathlib.Analysis.Complex.ExponentialBounds
import Mathlib.Analysis.SpecialFunctions.Log.Base
namespace GraphCalc.Grid

open Double
open Layout (double)

/-- The decade as the digits tell it. -/
def leadOf (extent : Float) : ℤ :=
  Decimal.leadingExponent (units extent) double.unitDenominator

/-- The rounded logarithm of an extent is not less than its decade, and is right to a few
units in the last place of the greatest logarithm. -/
structure RoundedLogarithm (extent : Float) : Prop where
  isFinite : (Float.log10 extent).isFinite = true
  leadOf_le : leadOf extent ≤ value (Float.log10 extent)
  near : |(value (Float.log10 extent) : ℝ) - Real.logb 10 (value extent)| ≤ 1 / 2 ^ 42

/-! ### The end of a decade -/

theorem ten_zpow_mul (k : ℤ) : (10 : ℚ) ^ k * 10 ^ (-k).toNat = 10 ^ k.toNat := by
  rcases le_total 0 k with hk | hk
  · have hzero : (-k).toNat = 0 := by omega
    rw [hzero, pow_zero, mul_one, ← zpow_natCast, Int.toNat_of_nonneg hk]
  · have hzero : k.toNat = 0 := by omega
    rw [hzero, pow_zero, ← zpow_natCast, Int.toNat_of_nonneg (by omega),
      ← zpow_add₀ (by norm_num), add_neg_cancel, zpow_zero]

theorem log_ten_lt : Real.log 10 < 3 := by
  rw [Real.log_lt_iff_lt_exp (by norm_num)]
  have hexp := Real.exp_one_gt_d9
  have hcube : Real.exp 3 = Real.exp 1 ^ 3 := by
    rw [← Real.exp_nat_mul]
    norm_num
  have hpow : (2.7 : ℝ) ^ 3 < Real.exp 1 ^ 3 :=
    pow_lt_pow_left₀ (by linarith) (by norm_num) (by norm_num)
  rw [hcube]
  linarith

theorem logb_ten_zpow (k : ℤ) : Real.logb 10 (10 ^ k) = k := by
  have hlogten : 0 < Real.log 10 := Real.log_pos (by norm_num)
  rw [Real.logb, Real.log_zpow, mul_div_cancel_right₀ _ (ne_of_gt hlogten)]

/-- A number that falls short of a power of ten by a small part has a logarithm that falls
short of the exponent. -/
theorem logb_lt_of_short {x : ℝ} (hpos : 0 < x) {k : ℤ} (h : x < (1 - 1 / 2 ^ 40) * 10 ^ k) :
    Real.logb 10 x < k - 1 / 2 ^ 42 := by
  have hshort : (0 : ℝ) < 1 - 1 / 2 ^ 40 := by norm_num
  have hlogten : 0 < Real.log 10 := Real.log_pos (by norm_num)
  have hfall : Real.logb 10 (1 - 1 / 2 ^ 40) < -(1 / 2 ^ 42) := by
    rw [Real.logb, div_lt_iff₀ hlogten]
    have hlog := Real.log_le_sub_one_of_pos hshort
    have hten := log_ten_lt
    linarith
  calc Real.logb 10 x < Real.logb 10 ((1 - 1 / 2 ^ 40) * 10 ^ k) :=
        Real.logb_lt_logb (by norm_num) hpos h
    _ = Real.logb 10 (1 - 1 / 2 ^ 40) + k := by
        rw [Real.logb_mul (ne_of_gt hshort) (by positivity), logb_ten_zpow]
    _ < k - 1 / 2 ^ 42 := by linarith

section Decade
variable {extent : Float} (hpos : 0 < value extent)
include hpos

/-- The digits do tell the decade. -/
theorem leadOf_spec : (10 : ℚ) ^ leadOf extent ≤ value extent ∧
    value extent < 10 ^ (leadOf extent + 1) := by
  have hunit := double.unitDenominator_pos
  have hcount := units_eq_abs_value extent
  rw [abs_of_pos hpos] at hcount
  have hunits : 0 < units extent := by
    have hcast : (0 : ℚ) < units extent := hcount ▸ mul_pos hpos hunit
    exact_mod_cast hcast
  have hspec := Decimal.leadingExponent_spec hunits (Nat.cast_pos.mp hunit)
  rwa [hcount, mul_div_cancel_right₀ _ (ne_of_gt hunit)] at hspec

/-- Where the digits decide, the extent falls short of the next power of ten. -/
theorem lt_of_digits
    (h : ¬ double.unitDenominator * 0xFFFFFFFFFF * 10 ^ (leadOf extent + 1).toNat ≤
      units extent * 0x10000000000 * 10 ^ (-(leadOf extent + 1)).toNat) :
    value extent < (1 - 1 / 2 ^ 40) * 10 ^ (leadOf extent + 1) := by
  have hunit := double.unitDenominator_pos
  have hcount := units_eq_abs_value extent
  rw [abs_of_pos hpos] at hcount
  obtain ⟨k, hk⟩ : ∃ k, k = leadOf extent + 1 := ⟨_, rfl⟩
  rw [← hk] at h ⊢
  have hcast : (units extent * 0x10000000000 * 10 ^ (-k).toNat : ℚ) <
      double.unitDenominator * 0xFFFFFFFFFF * 10 ^ k.toNat := by
    exact_mod_cast Nat.not_le.mp h
  rw [hcount, ← ten_zpow_mul k] at hcast
  have hscale : (0 : ℚ) < double.unitDenominator * 10 ^ (-k).toNat := by positivity
  refine lt_of_mul_lt_mul_right ?_ (le_of_lt hscale)
  linarith

/-- Digits and accurate logarithms agree on the decade. -/
theorem decade_eq_floor (hlog : RoundedLogarithm extent) :
    decade extent = ⌊value (Float.log10 extent)⌋ := by
  have hfloor : truncate (floor (Float.log10 extent)) = ⌊value (Float.log10 extent)⌋ :=
    (index_floor hlog.isFinite).truncate_eq
  have hdecade : decade extent =
      if double.unitDenominator * 0xFFFFFFFFFF * 10 ^ (leadOf extent + 1).toNat ≤
          units extent * 0x10000000000 * 10 ^ (-(leadOf extent + 1)).toNat
      then truncate (floor (Float.log10 extent)) else leadOf extent := rfl
  rw [hdecade]
  split
  · exact hfloor
  · next hdigits =>
      have hshort : (value extent : ℝ) <
          ((1 - 1 / 2 ^ 40) * 10 ^ (leadOf extent + 1) : ℚ) :=
        Rat.cast_lt.mpr (lt_of_digits hpos hdigits)
      push_cast at hshort
      have hpos' : (0 : ℝ) < value extent := by exact_mod_cast hpos
      have hless := logb_lt_of_short hpos' hshort
      have hnear := (abs_le.mp hlog.near).2
      have hupper : (value (Float.log10 extent) : ℝ) < (leadOf extent + 1 : ℤ) := by linarith
      have hupper' : value (Float.log10 extent) < leadOf extent + 1 := by exact_mod_cast hupper
      exact (Int.floor_eq_iff.mpr ⟨hlog.leadOf_le, hupper'⟩).symm

/-- The logarithms of doubles have three digits. -/
theorem abs_logb_le (hfinite : extent.isFinite = true) :
    |Real.logb 10 (value extent)| ≤ 400 := by
  have hunit := double.unitDenominator_pos
  have hpos' : (0 : ℝ) < value extent := by exact_mod_cast hpos
  have hcount := units_eq_abs_value extent
  rw [abs_of_pos hpos] at hcount
  have hlower : (10 : ℚ) ^ (-400 : ℤ) ≤ value extent := by
    have hunits : 0 < units extent := by
      have hcast : (0 : ℚ) < units extent := hcount ▸ mul_pos hpos hunit
      exact_mod_cast hcast
    have hone : (1 : ℚ) ≤ value extent * double.unitDenominator := by
      rw [← hcount]
      exact_mod_cast hunits
    have hlarge : (double.unitDenominator : ℚ) ≤ 10 ^ 400 := by
      exact_mod_cast (by decide +kernel : double.unitDenominator ≤ 10 ^ 400)
    rw [zpow_neg, zpow_ofNat, inv_le_iff_one_le_mul₀ (by positivity)]
    exact hone.trans (mul_le_mul_of_nonneg_left hlarge hpos.le)
  have hupper : value extent ≤ (10 : ℚ) ^ (400 : ℤ) := by
    have hless := isFinite_iff_abs_value.mp hfinite
    rw [abs_of_pos hpos, Layout.magnitude, lt_div_iff₀ hunit] at hless
    have htop : (double.units double.top : ℚ) ≤ 10 ^ 400 * double.unitDenominator := by
      exact_mod_cast (by decide +kernel :
        double.units double.top ≤ 10 ^ 400 * double.unitDenominator)
    rw [zpow_ofNat]
    exact le_of_mul_le_mul_right (hless.le.trans htop) hunit
  have hlower' : (10 : ℝ) ^ (-400 : ℤ) ≤ value extent := by
    have hcast : (((10 : ℚ) ^ (-400 : ℤ) : ℚ) : ℝ) ≤ value extent := Rat.cast_le.mpr hlower
    rwa [Rat.cast_zpow, Rat.cast_ofNat] at hcast
  have hupper' : (value extent : ℝ) ≤ 10 ^ (400 : ℤ) := by
    have hcast : (value extent : ℝ) ≤ ((10 : ℚ) ^ (400 : ℤ) : ℚ) := Rat.cast_le.mpr hupper
    rwa [Rat.cast_zpow, Rat.cast_ofNat] at hcast
  have hfrom := Real.logb_le_logb_of_le (b := 10) (by norm_num) (by positivity) hlower'
  have hto := Real.logb_le_logb_of_le (b := 10) (by norm_num) hpos' hupper'
  rw [logb_ten_zpow] at hfrom hto
  push_cast at hfrom hto
  exact abs_le.mpr ⟨hfrom, hto⟩

/-- The power of ten is that of the floor of the logarithm, if the powers in the table are
exact. -/
theorem powerOfTen_decade (hfinite : extent.isFinite = true) (hlog : RoundedLogarithm extent)
    (hpow : ∀ (v : Float) (k : ℕ), k ≤ 22 → Index v k →
      Float.pow 10.0 v = Double.ofInt (10 ^ k)) :
    powerOfTen (decade extent) = Float.pow 10.0 (floor (Float.log10 extent)) := by
  have hindex := index_floor hlog.isFinite
  rw [← decade_eq_floor hpos hlog] at hindex
  rw [powerOfTen]
  split
  · next htable =>
      obtain ⟨n, hn⟩ := Int.eq_ofNat_of_zero_le htable.1
      rw [hn] at hindex htable ⊢
      exact (hpow _ n (by omega) hindex).symm
  · next htable =>
      have hbound : (decade extent).natAbs < 2 ^ 53 := by
        have hlogb := abs_le.mp (abs_logb_le hpos hfinite)
        have hnear := abs_le.mp hlog.near
        have hspec := Int.floor_eq_iff.mp (decade_eq_floor hpos hlog).symm
        have hlower : (value (Float.log10 extent) : ℝ) < decade extent + 1 := by
          exact_mod_cast hspec.2
        have hupper : (decade extent : ℝ) ≤ value (Float.log10 extent) := by
          exact_mod_cast hspec.1
        have hfrom : (-402 : ℝ) < decade extent := by linarith
        have hto : (decade extent : ℝ) < 402 := by linarith
        have hfrom' : -402 < decade extent := by exact_mod_cast hfrom
        have hto' : decade extent < 402 := by exact_mod_cast hto
        omega
      have hne : value (Double.ofInt (decade extent)) ≠ 0 := by
        rw [(index_ofInt hbound).value_eq, Int.cast_ne_zero]
        omega
      have hsame := eq_of_value hne (hindex.value_eq.trans (index_ofInt hbound).value_eq.symm)
      rw [hsame]

/-- An extent is accurate where its logarithm is, and the power of ten at its floor. -/
theorem accurate_of_logarithm (hfinite : extent.isFinite = true)
    (hlog : RoundedLogarithm extent)
    (hpow : ∀ (v : Float) (k : ℕ), k ≤ 22 → Index v k →
      Float.pow 10.0 v = Double.ofInt (10 ^ k))
    (hpower : (Float.pow 10.0 (floor (Float.log10 extent))).isFinite = true)
    (hnear : |value (Float.pow 10.0 (floor (Float.log10 extent))) -
        10 ^ ⌊value (Float.log10 extent)⌋| ≤
      10 ^ ⌊value (Float.log10 extent)⌋ / 1000 + 1 / 2 / double.unitDenominator) :
    Accurate extent := by
  have hsame := powerOfTen_decade hpos hfinite hlog hpow
  have hle : leadOf extent ≤ ⌊value (Float.log10 extent)⌋ := Int.le_floor.mpr hlog.leadOf_le
  refine ⟨hle.trans_eq (decade_eq_floor hpos hlog).symm, ?_, ?_⟩
  · rw [hsame]
    exact hpower
  · rw [hsame, decade_eq_floor hpos hlog]
    exact hnear

end Decade

end GraphCalc.Grid
