/-
The numbers that doubles stand for.  An infinity counts as the next magnitude behind
the greatest double, so that the order of the doubles is the order of their values.
-/
import GraphCalc.Proofs.DecimalValues
import GraphCalc.Proofs.DoubleArithmetic
namespace GraphCalc.Double

open Float.Model Float.Model.UnpackedFloat
open Layout (double)

/-- The number that a double stands for. -/
def value (v : Float) : ℚ :=
  if negative v then -double.magnitude (pattern v) else double.magnitude (pattern v)

section Value
variable {v w : Float}

theorem value_of_positive (h : negative v = false) : value v = double.magnitude (pattern v) := by
  rw [value, h]
  rfl

theorem value_of_negative (h : negative v = true) : value v = -double.magnitude (pattern v) := by
  rw [value, h]
  rfl

theorem magnitude_nonneg (code : ℕ) : 0 ≤ double.magnitude code := by
  rw [← Layout.magnitude_zero double]
  exact double.magnitude_strictMono.monotone (Nat.zero_le code)

theorem abs_value (v : Float) : |value v| = double.magnitude (pattern v) := by
  cases hsign : negative v with
  | false => rw [value_of_positive hsign, abs_of_nonneg (magnitude_nonneg _)]
  | true => rw [value_of_negative hsign, abs_neg, abs_of_nonneg (magnitude_nonneg _)]

theorem magnitude_eq_zero {code : ℕ} : double.magnitude code = 0 ↔ code = 0 := by
  rw [← Layout.magnitude_zero double]
  exact double.magnitude_strictMono.injective.eq_iff

theorem value_eq_zero : value v = 0 ↔ pattern v = 0 := by
  rw [← abs_eq_zero, abs_value, magnitude_eq_zero]

theorem value_zero : value 0.0 = 0 := by
  rw [value_eq_zero]
  decide +kernel

theorem value_neg (h : pattern v ≤ 2047 * 2 ^ 52) : value (-v) = -value v := by
  have hsign := negative_neg h
  have hpattern := pattern_neg h
  cases hv : negative v with
  | false =>
      rw [hv, Bool.not_false] at hsign
      rw [value_of_negative hsign, value_of_positive hv, hpattern]
  | true =>
      rw [hv, Bool.not_true] at hsign
      rw [value_of_positive hsign, value_of_negative hv, hpattern, neg_neg]

/-- Significand and exponent give the magnitude. -/
theorem magnitude_canonical {mantissa : ℕ} {exponent : ℤ} (hexponent : -1074 ≤ exponent)
    (hlt : mantissa < 2 ^ 53) (hnormal : 2 ^ 52 ≤ mantissa ∨ exponent = -1074) :
    double.magnitude ((exponent + 1074).toNat * 2 ^ 52 + mantissa) = mantissa * 2 ^ exponent := by
  obtain ⟨block, hblock⟩ : ∃ block : ℕ, block = (exponent + 1074).toNat := ⟨_, rfl⟩
  have hhalf : double.half = 2 ^ 52 := rfl
  have hunits : double.units (block * 2 ^ 52 + mantissa) = mantissa * 2 ^ block := by
    rw [← hhalf]
    exact double.units_block (by omega) (by omega)
  have hexponent' : exponent = (block : ℤ) - (1074 : ℕ) := by omega
  have hunit : (double.unitDenominator : ℚ) = 2 ^ 1074 := by
    rw [Layout.unitDenominator, Nat.cast_pow, Nat.cast_ofNat]
    rfl
  rw [← hblock, Layout.magnitude, hunits, hexponent', zpow_sub₀ two_ne_zero, zpow_natCast,
    zpow_natCast, hunit, Nat.cast_mul, Nat.cast_pow, Nat.cast_ofNat, mul_div_assoc]

theorem log2_shiftLeft {mantissa : ℕ} (h : 0 < mantissa) (shift : ℕ) :
    (mantissa <<< shift).log2 = mantissa.log2 + shift := by
  have hne : mantissa * 2 ^ shift ≠ 0 := Nat.ne_of_gt (Nat.mul_pos h (Nat.two_pow_pos shift))
  rw [Nat.shiftLeft_eq, Nat.log2_eq_iff hne, Nat.add_right_comm, Nat.pow_add, Nat.pow_add]
  exact ⟨Nat.mul_le_mul_right _ (Nat.log2_self_le (Nat.ne_of_gt h)),
    Nat.mul_lt_mul_of_pos_right Nat.lt_log2_self (Nat.two_pow_pos shift)⟩

/-- A significand of 53 bits is found among the magnitudes. -/
theorem exists_magnitude {mantissa : ℕ} (exponent : ℤ) (hlt : mantissa < 2 ^ 53)
    (hlower : -1022 ≤ exponent) (hupper : exponent ≤ 971) :
    ∃ code < 2047 * 2 ^ 52, double.magnitude code = mantissa * 2 ^ exponent := by
  rcases Nat.eq_zero_or_pos mantissa with rfl | hpos
  · exact ⟨0, by decide, by rw [Layout.magnitude_zero, Nat.cast_zero, zero_mul]⟩
  have hlog := (Nat.log2_lt (Nat.ne_of_gt hpos)).mpr hlt
  obtain ⟨shift, hshift⟩ : ∃ shift : ℕ, mantissa.log2 + shift = 52 :=
    ⟨52 - mantissa.log2, by omega⟩
  have hbits := log2_shiftLeft hpos shift
  rw [hshift] at hbits
  have hne : mantissa <<< shift ≠ 0 := by
    intro hzero
    rw [hzero, Nat.log2_zero] at hbits
    omega
  obtain ⟨hge, hlt'⟩ := (Nat.log2_eq_iff hne).mp hbits
  have hmagnitude := magnitude_canonical (by omega : -1074 ≤ exponent - shift) hlt' (Or.inl hge)
  refine ⟨_, by omega, hmagnitude.trans ?_⟩
  rw [Nat.shiftLeft_eq, zpow_sub₀ two_ne_zero, zpow_natCast]
  push_cast
  field_simp

/-- The unpacked form of a finite double that is not zero, with its value. -/
theorem exists_form (hfinite : v.isFinite = true) (hne : value v ≠ 0) :
    ∃ (mantissa : ℕ) (exponent : ℤ) (h : 0 < mantissa),
      v.toModel.unpack = .finite (unpackedSign (negative v)) mantissa exponent h ∧
        -1074 ≤ exponent ∧ mantissa < 2 ^ 53 ∧ (2 ^ 52 ≤ mantissa ∨ exponent = -1074) ∧
          |value v| = mantissa * 2 ^ exponent := by
  rw [isFinite_eq, decide_eq_true_eq] at hfinite
  obtain ⟨mantissa, exponent, hmantissa, hform, hexponent, hlt, hnormal, hcode⟩ :=
    exists_canonical (negative v) (Nat.pos_of_ne_zero (mt value_eq_zero.mpr hne)) hfinite
  refine ⟨mantissa, exponent, hmantissa, ?_, hexponent, hlt, hnormal, ?_⟩
  · rw [unpack_toModel, hform]
  · rw [abs_value, hcode, magnitude_canonical hexponent hlt hnormal]

theorem unpack_of_value_eq_zero (h : value v = 0) :
    v.toModel.unpack = .zero (unpackedSign (negative v)) := by
  rw [unpack_toModel, value_eq_zero.mp h, unpacked_zero]

end Value

/-! ### The order -/

theorem compare_magnitude (code code' : ℕ) :
    compare code code' = compare (double.magnitude code) (double.magnitude code') := by
  rcases lt_trichotomy code code' with hlt | rfl | hgt
  · rw [compare_lt_iff_lt.mpr hlt, compare_lt_iff_lt.mpr (double.magnitude_strictMono hlt)]
  · rw [compare_eq_iff_eq.mpr rfl, compare_eq_iff_eq.mpr rfl]
  · rw [compare_gt_iff_gt.mpr hgt, compare_gt_iff_gt.mpr (double.magnitude_strictMono hgt)]

theorem swap_compare (x y : ℚ) : (compare x y).swap = compare (-x) (-y) := by
  rcases lt_trichotomy x y with hlt | heq | hgt
  · rw [compare_lt_iff_lt.mpr hlt, compare_gt_iff_gt.mpr (neg_lt_neg hlt)]
    rfl
  · rw [compare_eq_iff_eq.mpr heq, compare_eq_iff_eq.mpr (congrArg _ heq)]
    rfl
  · rw [compare_gt_iff_gt.mpr hgt, compare_lt_iff_lt.mpr (neg_lt_neg hgt)]
    rfl

theorem compare_unpacked_negative (code code' : ℕ) :
    (unpacked true code).compare (unpacked true code') =
      ((unpacked false code).compare (unpacked false code')).map Ordering.swap := by
  simp only [unpacked]
  repeat' split
  all_goals rfl

theorem compare_unpacked_mixed {code code' : ℕ} (h : code ≤ 2047 * 2 ^ 52)
    (h' : code' ≤ 2047 * 2 ^ 52) :
    (unpacked false code).compare (unpacked true code') =
        some (if code = 0 ∧ code' = 0 then .eq else .gt) ∧
      (unpacked true code').compare (unpacked false code) =
        some (if code = 0 ∧ code' = 0 then .eq else .lt) := by
  rcases unpacked_cases false h with ⟨hcode, heq⟩ | ⟨_, _, _, hcode, heq⟩ | ⟨hcode, heq⟩ <;>
    rcases unpacked_cases true h' with ⟨hcode', heq'⟩ | ⟨_, _, _, hcode', heq'⟩ | ⟨hcode', heq'⟩ <;>
      rw [heq, heq'] <;> constructor <;> split <;> first | rfl | omega

section Order
variable {v w : Float} (hv : pattern v ≤ 2047 * 2 ^ 52) (hw : pattern w ≤ 2047 * 2 ^ 52)
include hv hw

/-- Doubles are compared as their values. -/
theorem compare_eq : v.toModel.unpack.compare w.toModel.unpack =
    some (compare (value v) (value w)) := by
  obtain ⟨hmixed, hmixed'⟩ := compare_unpacked_mixed hv hw
  obtain ⟨hreverse, hreverse'⟩ := compare_unpacked_mixed hw hv
  have hpos := magnitude_nonneg (pattern v)
  have hpos' := magnitude_nonneg (pattern w)
  rw [unpack_toModel, unpack_toModel]
  cases hsign : negative v <;> cases hsign' : negative w
  · rw [compare_unpacked hv hw, compare_magnitude, value_of_positive hsign,
      value_of_positive hsign']
  · rw [hmixed, value_of_positive hsign, value_of_negative hsign']
    split
    · next hzero =>
        rw [hzero.1, hzero.2, Layout.magnitude_zero, neg_zero, compare_eq_iff_eq.mpr rfl]
    · next hne =>
        rw [compare_gt_iff_gt.mpr]
        rcases not_and_or.mp hne with hcode | hcode
        · linarith [lt_of_le_of_ne hpos (Ne.symm (mt magnitude_eq_zero.mp hcode))]
        · linarith [lt_of_le_of_ne hpos' (Ne.symm (mt magnitude_eq_zero.mp hcode))]
  · rw [hreverse', value_of_negative hsign, value_of_positive hsign']
    split
    · next hzero =>
        rw [hzero.1, hzero.2, Layout.magnitude_zero, neg_zero, compare_eq_iff_eq.mpr rfl]
    · next hne =>
        rw [compare_lt_iff_lt.mpr]
        rcases not_and_or.mp hne with hcode | hcode
        · linarith [lt_of_le_of_ne hpos' (Ne.symm (mt magnitude_eq_zero.mp hcode))]
        · linarith [lt_of_le_of_ne hpos (Ne.symm (mt magnitude_eq_zero.mp hcode))]
  · rw [compare_unpacked_negative, compare_unpacked hv hw, compare_magnitude,
      value_of_negative hsign, value_of_negative hsign', Option.map_some, swap_compare]

theorem lt_iff_value : v < w ↔ value v < value w := by
  change (decide ((v.toModel.unpack.compare w.toModel.unpack == some .lt) = true)) = true ↔ _
  rw [compare_eq hv hw, ← compare_lt_iff_lt]
  simp

theorem le_iff_value : v ≤ w ↔ value v ≤ value w := by
  change (decide ((v.toModel.unpack.compare w.toModel.unpack).any (·.isLE) = true)) = true ↔ _
  rw [compare_eq hv hw, ← compare_le_iff_le, decide_eq_true_eq, Option.any_some,
    Ordering.isLE_iff_ne_gt]

/-- The zeros of both signs count as one number. -/
theorem beq_iff_value : (v == w) = true ↔ value v = value w := by
  change (v.toModel.unpack.compare w.toModel.unpack == some .eq) = true ↔ _
  rw [compare_eq hv hw, ← compare_eq_iff_eq]
  simp

end Order

end GraphCalc.Double
