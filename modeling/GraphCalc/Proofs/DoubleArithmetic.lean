/-
Sums, products and quotients of doubles.  An operation on NaN gives NaN, and a
quotient by a number from two up is finite where the dividend is.
-/
import GraphCalc.Proofs.DoubleBits
namespace GraphCalc.Double

open Float.Model Float.Model.UnpackedFloat

/-! ### NaN -/

theorem isNaN_notANumber : (ofUnpacked .notANumber).isNaN = true := by
  rw [isNaN_eq, decide_eq_true_eq]
  change 2047 * 2 ^ 52 < (UnpackedFloat.packedNaN Format.binary64).toNat % 2 ^ 63
  decide

section NaN
variable {v : Float} (h : v.isNaN = true)
include h

theorem unpack_of_isNaN : v.toModel.unpack = .notANumber := by
  rw [isNaN_eq, decide_eq_true_eq] at h
  rw [unpack_toModel, unpacked, if_pos h]

/-- NaN stays NaN, whatever is added, subtracted, multiplied or divided by. -/
theorem isNaN_arithmetic (w : Float) :
    (v + w).isNaN = true ∧ (v - w).isNaN = true ∧ (v * w).isNaN = true ∧
      (v / w).isNaN = true := by
  have hadd : v + w = ofUnpacked (add .binary64 v.toModel.unpack w.toModel.unpack) := rfl
  have hsub : v - w = ofUnpacked (sub .binary64 v.toModel.unpack w.toModel.unpack) := rfl
  have hmul : v * w = ofUnpacked (mul .binary64 v.toModel.unpack w.toModel.unpack) := rfl
  have hdiv : v / w = ofUnpacked (div .binary64 v.toModel.unpack w.toModel.unpack) := rfl
  rw [hadd, hsub, hmul, hdiv, unpack_of_isNaN h]
  exact ⟨isNaN_notANumber, isNaN_notANumber, isNaN_notANumber, isNaN_notANumber⟩

end NaN

/-! ### The exponent of a rounded number -/

/-- What a form with a significand is packed to: its sign, and a pattern that is smaller
the smaller the exponent is. -/
theorem exists_toNat_ofUnpacked (sign : Sign) {mantissa : Nat} (exponent : Int)
    (hmantissa : 0 < mantissa) :
    ∃ code, (ofUnpacked (.finite sign mantissa exponent hmantissa)).toBits.toNat =
        sign.toBitVec.toNat * 2 ^ 63 + code ∧ code ≤ 2047 * 2 ^ 52 ∧
      ∀ limit : Nat, limit ≤ 2046 → exponent + 1075 ≤ limit → code < (limit + 1) * 2 ^ 52 := by
  have hbiased : (exponent + Format.binary64.exponentBias + (52 : Nat)).toNat =
      (exponent + 1075).toNat := by
    change (exponent + (1023 : Nat) + (52 : Nat)).toNat = _
    omega
  change ∃ code, (UnpackedFloat.pack Format.binary64
    (.finite sign mantissa exponent hmantissa)).toNat = _ ∧ _
  simp only [UnpackedFloat.pack, hbiased]
  split
  -- the exponent is beyond the last one: the pattern is the one of infinity
  · refine ⟨2047 * 2 ^ 52, ?_, Nat.le_refl _, fun limit hlimit hexponent => by omega⟩
    cases sign <;> rfl
  · split
    · rw [toNat_packComponents, BitVec.toNat_ofNat, BitVec.toNat_ofNat, Nat.add_assoc]
      exact ⟨_, rfl, by omega, fun limit _ _ => by omega⟩
    · rw [toNat_packComponents, BitVec.toNat_ofNat, Nat.add_assoc]
      exact ⟨_, rfl, by simp; omega, fun limit _ _ => by simp; omega⟩

theorem pattern_of_toNat {v : Float} {sign : Sign} {code : Nat} (hcode : code ≤ 2047 * 2 ^ 52)
    (h : v.toBits.toNat = sign.toBitVec.toNat * 2 ^ 63 + code) : pattern v = code := by
  rw [pattern, h]
  omega

theorem pattern_ofUnpacked_le (sign : Sign) {mantissa : Nat} (exponent : Int)
    (hmantissa : 0 < mantissa) :
    pattern (ofUnpacked (.finite sign mantissa exponent hmantissa)) ≤ 2047 * 2 ^ 52 := by
  obtain ⟨code, hbits, hcode, -⟩ := exists_toNat_ofUnpacked sign exponent hmantissa
  rwa [pattern_of_toNat hcode hbits]

theorem pattern_ofUnpacked_lt (sign : Sign) {mantissa : Nat} {exponent : Int}
    (hmantissa : 0 < mantissa) {limit : Nat} (hlimit : limit ≤ 2046)
    (hexponent : exponent + 1075 ≤ limit) :
    pattern (ofUnpacked (.finite sign mantissa exponent hmantissa)) < (limit + 1) * 2 ^ 52 := by
  obtain ⟨code, hbits, hcode, hlt⟩ := exists_toNat_ofUnpacked sign exponent hmantissa
  rw [pattern_of_toNat hcode hbits]
  exact hlt limit hlimit hexponent

/-- A form whose exponent is in range is packed to a finite number. -/
theorem isFinite_ofUnpacked {sign : Sign} {mantissa : Nat} {exponent : Int}
    (hmantissa : 0 < mantissa) (hexponent : exponent ≤ 971) :
    (ofUnpacked (.finite sign mantissa exponent hmantissa)).isFinite = true := by
  rw [isFinite_eq, decide_eq_true_eq]
  exact pattern_ofUnpacked_lt sign hmantissa (Nat.le_refl 2046) (by omega)

theorem mantissa_shiftRight (extended : ExtendedMantissa) (shift : Nat) :
    (extended >>> shift).mantissa = extended.mantissa / 2 ^ shift := by
  induction shift with
  | zero => exact (Nat.div_one _).symm
  | succ shift ih =>
      change (extended >>> shift).mantissa / 2 = _
      rw [ih, Nat.div_div_eq_div_mul, Nat.pow_succ]

theorem roundedMantissa_le (extended : ExtendedMantissa) :
    extended.roundedMantissa ≤ extended.mantissa + 1 := by
  rcases extended with ⟨mantissa, round, sticky⟩
  cases round <;> cases sticky <;>
    simp [ExtendedMantissa.roundedMantissa, ExtendedMantissa.accuracy,
      Accuracy.roundToNearestEven]
  omega

theorem targetExponent_eq (total : Int) :
    Format.binary64.targetExponent total = max (total - 53) (-1074) :=
  rfl

theorem mantissa_ofMantissaAndAccuracy (mantissa : Nat) (accuracy : Accuracy) :
    (ExtendedMantissa.ofMantissaAndAccuracy mantissa accuracy).mantissa = mantissa := by
  rcases accuracy with _ | ordering
  · rfl
  · cases ordering <;> rfl

theorem shiftToTargetExponent_eq (mantissa : Nat) (exponent : Int) (accuracy : Accuracy) :
    shiftToTargetExponent .binary64 mantissa exponent accuracy =
      (ExtendedMantissa.ofMantissaAndAccuracy mantissa accuracy >>>
          (max ((mantissa.log2 : Int) + exponent - 52) (-1074) - exponent).toNat,
        max exponent (max (mantissa.log2 + exponent - 52) (-1074))) := by
  have htarget : max (totalExponent mantissa exponent - 53) (-1074) =
      max ((mantissa.log2 : Int) + exponent - 52) (-1074) := by
    rw [totalExponent]
    omega
  simp only [shiftToTargetExponent, shiftToExponent, targetExponent_eq, htarget, Prod.mk.injEq,
    true_and]
  omega

/-- Shifting raises the exponent to the target and leaves at most 53 bits. -/
theorem shiftToTargetExponent_bounds (mantissa : Nat) (exponent : Int) (accuracy : Accuracy) :
    (shiftToTargetExponent Format.binary64 mantissa exponent accuracy).2 =
        max exponent (max (mantissa.log2 + exponent - 52) (-1074)) ∧
      (shiftToTargetExponent Format.binary64 mantissa exponent accuracy).1.mantissa < 2 ^ 53 := by
  obtain ⟨shift, hshift⟩ : ∃ shift : Nat,
      shift = (max ((mantissa.log2 : Int) + exponent - 52) (-1074) - exponent).toNat := ⟨_, rfl⟩
  rw [shiftToTargetExponent_eq, ← hshift, mantissa_shiftRight, mantissa_ofMantissaAndAccuracy]
  refine ⟨rfl, (Nat.div_lt_iff_lt_mul (Nat.two_pow_pos shift)).mpr ?_⟩
  calc mantissa < 2 ^ (mantissa.log2 + 1) := Nat.lt_log2_self
    _ ≤ 2 ^ (53 + shift) := Nat.pow_le_pow_right Nat.two_pos (by omega)
    _ = 2 ^ 53 * 2 ^ shift := Nat.pow_add 2 53 shift

theorem exists_unpackedSign (sign : Sign) : ∃ negative : Bool, sign = unpackedSign negative := by
  cases sign with
  | positive => exact ⟨false, rfl⟩
  | negative => exact ⟨true, rfl⟩

theorem pattern_zero (sign : Sign) : pattern (ofUnpacked (.zero sign)) = 0 := by
  obtain ⟨negative, rfl⟩ := exists_unpackedSign sign
  rw [← unpacked_zero, pattern_ofUnpacked negative (Nat.zero_le _)]

theorem isFinite_zero (sign : Sign) : (ofUnpacked (.zero sign)).isFinite = true := by
  rw [isFinite_eq, pattern_zero]
  rfl

/-- Rounding keeps the sign, and raises the exponent once more at most. -/
theorem roundWithAccuracy_cases (sign : Sign) (mantissa : Nat) (exponent : Int)
    (accuracy : Accuracy) :
    roundWithAccuracy Format.binary64 sign mantissa exponent accuracy = .zero sign ∨
      ∃ (rounded : Nat) (power : Int) (h : 0 < rounded),
        roundWithAccuracy Format.binary64 sign mantissa exponent accuracy =
            .finite sign rounded power h ∧
          power ≤ max exponent (max (mantissa.log2 + exponent - 52) (-1074)) + 1 := by
  obtain ⟨hfirst, hfirst'⟩ := shiftToTargetExponent_bounds mantissa exponent accuracy
  obtain ⟨shifted, hshifted⟩ : ∃ shifted,
      shifted = shiftToTargetExponent Format.binary64 mantissa exponent accuracy := ⟨_, rfl⟩
  rw [← hshifted] at hfirst hfirst'
  have hrounded : shifted.1.roundedMantissa.log2 ≤ 53 := by
    have hle := roundedMantissa_le shifted.1
    by_cases hzero : shifted.1.roundedMantissa = 0
    · rw [hzero]
      decide
    · exact Nat.le_of_lt_succ ((Nat.log2_lt hzero).mpr (by omega))
  obtain ⟨hsecond, -⟩ :=
    shiftToTargetExponent_bounds shifted.1.roundedMantissa shifted.2 .exact
  simp only [roundWithAccuracy, ← hshifted]
  split
  · exact Or.inl rfl
  · next hzero => exact Or.inr ⟨_, _, Nat.pos_of_ne_zero hzero, rfl, by omega⟩

theorem isFinite_roundWithAccuracy (sign : Sign) {mantissa : Nat} {exponent : Int}
    (accuracy : Accuracy) (hexponent : exponent ≤ 970)
    (htotal : mantissa.log2 + exponent ≤ 1022) :
    (ofUnpacked (roundWithAccuracy Format.binary64 sign mantissa exponent accuracy)).isFinite =
      true := by
  rcases roundWithAccuracy_cases sign mantissa exponent accuracy with
    hzero | ⟨rounded, power, hrounded, hfinite, hpower⟩
  · rw [hzero]
    exact isFinite_zero sign
  · rw [hfinite]
    exact isFinite_ofUnpacked hrounded (by omega)

/-! ### Quotients -/

/-- The quotient of two significands, scaled so that no bits are lost, has as many bits
as the scaling has, if the divisor is normal. -/
theorem log2_scaled_div_le {dividend divisor : Nat} (hdividend : dividend < 2 ^ 53)
    (hdivisor : 2 ^ 52 ≤ divisor) (shift : Nat) : (dividend <<< shift / divisor).log2 ≤ shift := by
  by_cases hzero : dividend <<< shift / divisor = 0
  · rw [hzero, Nat.log2_zero]
    exact Nat.zero_le shift
  refine Nat.le_of_lt_succ ((Nat.log2_lt hzero).mpr ?_)
  rw [Nat.div_lt_iff_lt_mul (Nat.lt_of_lt_of_le (Nat.two_pow_pos 52) hdivisor),
    Nat.shiftLeft_eq]
  calc dividend * 2 ^ shift < 2 ^ 53 * 2 ^ shift :=
        Nat.mul_lt_mul_of_pos_right hdividend (Nat.two_pow_pos shift)
    _ = 2 ^ (shift + 1) * 2 ^ 52 := by rw [← Nat.pow_add, ← Nat.pow_add, Nat.add_right_comm,
        Nat.add_comm 53 shift]
    _ ≤ 2 ^ (shift + 1) * divisor := Nat.mul_le_mul_left _ hdivisor

/-- Significand and exponent of a quotient, before rounding. -/
theorem divCore_bounds {dividend divisor : Nat} {exponent power : Int}
    (hdividend : dividend < 2 ^ 53) (hdivisor : 2 ^ 52 ≤ divisor) (hexponent : exponent ≤ 971)
    (hpower : -51 ≤ power) :
    (divCore Format.binary64 dividend exponent divisor power).2.1 ≤ 970 ∧
      ((divCore Format.binary64 dividend exponent divisor power).1.log2 : Int) +
        (divCore Format.binary64 dividend exponent divisor power).2.1 ≤ 1022 := by
  have hlog : dividend.log2 ≤ 52 := by
    by_cases hzero : dividend = 0
    · rw [hzero]
      decide
    · exact Nat.le_of_lt_succ ((Nat.log2_lt hzero).mpr hdividend)
  have hlog' : 52 ≤ divisor.log2 := (Nat.le_log2 (by omega)).mpr hdivisor
  have htotal : totalExponent dividend exponent - totalExponent divisor power - 53 ≤ 969 := by
    rw [totalExponent, totalExponent]
    omega
  obtain ⟨target, htarget⟩ : ∃ target, target = min (exponent - power)
      (max (totalExponent dividend exponent - totalExponent divisor power - 53) (-1074)) :=
    ⟨_, rfl⟩
  have hquotient := log2_scaled_div_le hdividend hdivisor (exponent - power - target).toNat
  simp only [divCore, targetExponent_eq, ← htarget]
  omega

theorem div_finite (sign sign' : Sign) {dividend divisor : Nat} (exponent power : Int)
    (hdividend : 0 < dividend) (hdivisor : 0 < divisor) :
    div Format.binary64 (.finite sign dividend exponent hdividend)
        (.finite sign' divisor power hdivisor) =
      roundWithAccuracy Format.binary64 (sign / sign')
        (divCore Format.binary64 dividend exponent divisor power).1
        (divCore Format.binary64 dividend exponent divisor power).2.1
        (divCore Format.binary64 dividend exponent divisor power).2.2 :=
  rfl

/-- The quotient of a finite number by a number from two up is finite. -/
theorem isFinite_div {v w : Float} (hv : v.isFinite = true) (hw : w.isFinite = true)
    (hlarge : pattern 2.0 ≤ pattern w) : (v / w).isFinite = true := by
  have hdiv : v / w = ofUnpacked (div .binary64 v.toModel.unpack w.toModel.unpack) := rfl
  have htwo : pattern 2.0 = 1024 * 2 ^ 52 := by decide +kernel
  rw [isFinite_eq, decide_eq_true_eq] at hv hw
  have hwpos : 0 < pattern w := by omega
  obtain ⟨divisor, power, hdivisor, hwform, hpower, hdivisorlt, hnormal, hcode⟩ :=
    exists_canonical (negative w) hwpos hw
  rw [hdiv, unpack_toModel, unpack_toModel, hwform]
  rcases Nat.eq_zero_or_pos (pattern v) with hzero | hpos
  · rw [hzero, unpacked_zero]
    exact isFinite_zero _
  · obtain ⟨dividend, exponent, hdividend, hvform, hexponent, hdividendlt, hnormal', hcode'⟩ :=
      exists_canonical (negative v) hpos hv
    rw [hvform, div_finite]
    obtain ⟨hrange, htotal⟩ := divCore_bounds hdividendlt (by omega : 2 ^ 52 ≤ divisor)
      (by omega : exponent ≤ 971) (by omega : -51 ≤ power)
    exact isFinite_roundWithAccuracy _ _ hrange htotal

end GraphCalc.Double
