/-
Sums, differences, products and quotients of finite doubles.  Each is the double nearest
to the exact result, and what holds of rounding holds of all of them.
-/
import GraphCalc.Proofs.CorrectRounding
import GraphCalc.Proofs.NearestDoubles
namespace GraphCalc.Double

open Float.Model Float.Model.UnpackedFloat
open Layout (double)

/-- The double is the one nearest to the number, on its side of zero. -/
structure Rounds (x : ℚ) (v : Float) : Prop where
  pattern_eq : pattern v = double.nearest x.num.natAbs x.den
  negative_eq : x ≠ 0 → negative v = decide (x < 0)

/-! ### Rounded forms -/

theorem abs_eq_num_div_den (x : ℚ) : |x| = (x.num.natAbs : ℚ) / x.den := by
  conv_lhs => rw [← Rat.num_div_den x]
  rw [abs_div, Nat.abs_cast, ← Int.cast_abs, Int.abs_eq_natAbs, Int.cast_natCast]

theorem inUnits_num_den (x : ℚ) :
    double.inUnits x.num.natAbs x.den = |x| * double.unitDenominator := by
  rw [Layout.inUnits, abs_eq_num_div_den]

theorem negative_of_toNat {v : Float} {sign : Bool} {code : ℕ} (hcode : code ≤ 2047 * 2 ^ 52)
    (h : v.toBits.toNat = (unpackedSign sign).toBitVec.toNat * 2 ^ 63 + code) :
    negative v = sign := by
  rw [toNat_unpackedSign] at h
  rw [negative, h]
  cases sign with
  | true => simp
  | false =>
      simp
      omega

theorem Rounds.of_toNat {x : ℚ} {v : Float} {sign : Bool}
    (hsign : x ≠ 0 → sign = decide (x < 0))
    (h : v.toBits.toNat = (unpackedSign sign).toBitVec.toNat * 2 ^ 63 +
      double.nearest x.num.natAbs x.den) : Rounds x v := by
  have hcode : double.nearest x.num.natAbs x.den ≤ 2047 * 2 ^ 52 := Nat.min_le_left _ _
  refine ⟨pattern_of_toNat hcode h, fun hne => ?_⟩
  rw [negative_of_toNat hcode h, hsign hne]

section Rounded
variable {x : ℚ} {sign : Bool} {mantissa : ℕ} {exponent : ℤ}
  (hsign : x ≠ 0 → sign = decide (x < 0))
include hsign

theorem rounds_roundWithAccuracy {accuracy : Accuracy} {y : ℚ}
    (hdescribes : Describes (ExtendedMantissa.ofMantissaAndAccuracy mantissa accuracy) y)
    (hexponent : exponent ≤ max (mantissa.log2 + exponent - 52) (-1074))
    (hvalue : |x| = y * 2 ^ exponent) :
    Rounds x (ofUnpacked
      (roundWithAccuracy .binary64 (unpackedSign sign) mantissa exponent accuracy)) := by
  rw [abs_eq_num_div_den] at hvalue
  exact .of_toNat hsign (toNat_roundWithAccuracy _ x.den_pos hdescribes hexponent hvalue)

/-- An exact number is first given so many bits that none is lost. -/
theorem rounds_round (hmantissa : 0 < mantissa) (hvalue : |x| = mantissa * 2 ^ exponent) :
    Rounds x
      (ofUnpacked (UnpackedFloat.round .binary64 (unpackedSign sign) mantissa exponent)) := by
  obtain ⟨shift, hshift⟩ : ∃ shift : ℕ, shift =
      (exponent - max ((mantissa.log2 : ℤ) + 1 + exponent - 53) (-1074)).toNat := ⟨_, rfl⟩
  have hround : UnpackedFloat.round .binary64 (unpackedSign sign) mantissa exponent =
      roundWithAccuracy .binary64 (unpackedSign sign) (mantissa <<< shift) (exponent - shift)
        .exact := by
    simp only [UnpackedFloat.round, decreaseExponent, targetExponent_eq, totalExponent, ← hshift]
  have hlog := log2_shiftLeft hmantissa shift
  rw [hround]
  refine rounds_roundWithAccuracy hsign (describes_exact _) ?_ ?_
  · rw [hlog]
    push_cast
    omega
  · rw [hvalue, Nat.shiftLeft_eq, zpow_sub₀ two_ne_zero, zpow_natCast]
    push_cast
    field_simp

end Rounded

theorem rounds_zero (sign : Sign) : Rounds 0 (ofUnpacked (.zero sign)) := by
  refine ⟨?_, fun hne => absurd rfl hne⟩
  have hnearest : double.nearest 0 1 = 0 := by decide +kernel
  rw [pattern_zero, Rat.num_zero, Rat.den_zero, Int.natAbs_zero, hnearest]

theorem rounds_normalize {x : ℚ} {mantissa exponent : ℤ} (sign : Sign)
    (hvalue : x = mantissa * 2 ^ exponent) :
    Rounds x (ofUnpacked (UnpackedFloat.normalize .binary64 mantissa exponent sign)) := by
  have hpow : (0 : ℚ) < 2 ^ exponent := by positivity
  simp only [UnpackedFloat.normalize]
  rcases lt_trichotomy mantissa 0 with hneg | rfl | hpos
  · have hx : x < 0 := hvalue ▸ mul_neg_of_neg_of_pos (Int.cast_lt_zero.mpr hneg) hpow
    rw [compare_lt_iff_lt.mpr hneg]
    change Rounds x (ofUnpacked (UnpackedFloat.round .binary64 (unpackedSign true) _ _))
    refine rounds_round (fun _ => (decide_eq_true hx).symm) (by omega) ?_
    rw [abs_of_neg hx, hvalue, ← neg_mul, ← Int.cast_natCast, Int.toNat_of_nonneg (by omega),
      Int.cast_neg]
  · rw [compare_eq_iff_eq.mpr rfl, hvalue, Int.cast_zero, zero_mul]
    exact rounds_zero sign
  · have hx : 0 < x := hvalue ▸ mul_pos (Int.cast_pos.mpr hpos) hpow
    rw [compare_gt_iff_gt.mpr hpos]
    change Rounds x (ofUnpacked (UnpackedFloat.round .binary64 (unpackedSign false) _ _))
    refine rounds_round (fun _ => (decide_eq_false hx.not_gt).symm) (by omega) ?_
    rw [abs_of_pos hx, hvalue, ← Int.cast_natCast, Int.toNat_of_nonneg (by omega)]

/-! ### Exact doubles -/

section Exact
variable {v : Float}

/-- The sign of a double that is not zero is the sign of its value. -/
theorem negative_eq_of_value (hne : value v ≠ 0) : negative v = decide (value v < 0) := by
  have hpos : 0 < double.magnitude (pattern v) := by
    rw [← abs_value]
    exact abs_pos.mpr hne
  cases hsign : negative v with
  | false => rw [value_of_positive hsign, decide_eq_false (not_lt.mpr (le_of_lt hpos))]
  | true => rw [value_of_negative hsign, decide_eq_true (neg_lt_zero.mpr hpos)]

/-- A value that is not zero belongs to one double. -/
theorem eq_of_value {w : Float} (hne : value v ≠ 0) (h : value w = value v) : w = v := by
  have hpattern : double.magnitude (pattern w) = double.magnitude (pattern v) := by
    rw [← abs_value, ← abs_value, h]
  refine eq_of_pattern ?_ (double.magnitude_strictMono.injective hpattern)
  rw [negative_eq_of_value hne, negative_eq_of_value (h ▸ hne), h]

/-- Every double but NaN is the nearest one to its value. -/
theorem rounds_value (h : pattern v ≤ 2047 * 2 ^ 52) : Rounds (value v) v := by
  refine ⟨?_, negative_eq_of_value⟩
  have hunits : double.inUnits (value v).num.natAbs (value v).den = double.units (pattern v) := by
    rw [inUnits_num_den, abs_value, Layout.magnitude_mul]
  exact Nat.le_antisymm
    (Layout.le_nearest (by decide) (Rat.den_pos _) h (le_of_eq hunits.symm))
    (Layout.nearest_le (by decide) (Rat.den_pos _) (le_of_eq hunits))

end Exact

/-! ### Operations -/

theorem pattern_le_of_isFinite {v : Float} (hv : v.isFinite = true) :
    pattern v ≤ 2047 * 2 ^ 52 := by
  rw [isFinite_eq, decide_eq_true_eq] at hv
  exact Nat.le_of_lt hv

theorem ofUnpacked_unpack {v : Float} (hv : pattern v ≤ 2047 * 2 ^ 52) :
    ofUnpacked v.toModel.unpack = v := by
  rw [unpack_toModel, ← ofPattern_eq _ hv, ofPattern_pattern hv]

/-- The sign before a significand says on which side of zero the value is. -/
theorem value_eq_apply {v : Float} {mantissa : ℕ} {exponent : ℤ} (hpos : 0 < mantissa)
    (habs : |value v| = mantissa * 2 ^ exponent) :
    value v = ((unpackedSign (negative v)).apply mantissa : ℤ) * 2 ^ exponent := by
  have hne : value v ≠ 0 := by
    rw [← abs_pos, habs]
    positivity
  have hsign := negative_eq_of_value hne
  cases hnegative : negative v with
  | false =>
      rw [hnegative, eq_comm, decide_eq_false_iff_not, not_lt] at hsign
      rw [abs_of_nonneg hsign] at habs
      exact habs
  | true =>
      rw [hnegative, eq_comm, decide_eq_true_eq] at hsign
      rw [abs_of_neg hsign] at habs
      change value v = ((-(mantissa : ℤ) : ℤ) : ℚ) * 2 ^ exponent
      rw [Int.cast_neg, Int.cast_natCast, neg_mul, ← habs, neg_neg]

/-- A significand at a smaller exponent. -/
theorem apply_shiftLeft (sign : Sign) (mantissa : ℕ) {exponent lower : ℤ} (h : lower ≤ exponent) :
    ((sign.apply (mantissa <<< (exponent - lower).toNat : ℕ) : ℤ) : ℚ) * 2 ^ lower =
      (sign.apply mantissa : ℤ) * 2 ^ exponent := by
  have hpow : (2 : ℚ) ^ exponent = 2 ^ (exponent - lower).toNat * 2 ^ lower := by
    rw [← zpow_natCast, ← zpow_add₀ two_ne_zero, Int.toNat_of_nonneg (by omega), sub_add_cancel]
  rw [hpow, Nat.shiftLeft_eq]
  cases sign <;> simp only [Sign.apply] <;> push_cast <;> ring

/-- To subtract is to add the opposite. -/
theorem sub_eq_add {v w : Float} (hw : pattern w ≤ 2047 * 2 ^ 52) : v - w = v + -w := by
  have hsub : v - w = ofUnpacked (sub .binary64 v.toModel.unpack w.toModel.unpack) := rfl
  have hadd : v + -w = ofUnpacked (add .binary64 v.toModel.unpack (-w).toModel.unpack) := rfl
  have hneg : (-w).toModel.unpack = w.toModel.unpack.neg := by
    rw [unpack_toModel, unpack_toModel, neg_unpacked, negative_neg hw, pattern_neg hw]
  rw [hsub, hadd, hneg]
  cases v.toModel.unpack <;> cases w.toModel.unpack <;> first | rfl | skip
  next sign mantissa exponent _ sign' mantissa' exponent' _ =>
    have happly : ∀ n : ℤ, (-sign').apply n = -sign'.apply n := by
      intro n
      cases sign' with
      | positive => rfl
      | negative => exact (neg_neg n).symm
    simp only [UnpackedFloat.sub, UnpackedFloat.add, UnpackedFloat.neg, happly,
      Int.sub_eq_add_neg]

theorem decide_mul_lt_zero {x y : ℚ} (hx : x ≠ 0) (hy : y ≠ 0) :
    decide (x * y < 0) = (decide (x < 0) != decide (y < 0)) := by
  rcases lt_or_gt_of_ne hx with hneg | hpos <;> rcases lt_or_gt_of_ne hy with hneg' | hpos'
  · rw [decide_eq_true hneg, decide_eq_true hneg',
      decide_eq_false (mul_pos_of_neg_of_neg hneg hneg').not_gt]
    rfl
  · rw [decide_eq_true hneg, decide_eq_false hpos'.not_gt,
      decide_eq_true (mul_neg_of_neg_of_pos hneg hpos')]
    rfl
  · rw [decide_eq_false hpos.not_gt, decide_eq_true hneg',
      decide_eq_true (mul_neg_of_pos_of_neg hpos hneg')]
    rfl
  · rw [decide_eq_false hpos.not_gt, decide_eq_false hpos'.not_gt,
      decide_eq_false (mul_pos hpos hpos').not_gt]
    rfl

theorem unpackedSign_mul (negative negative' : Bool) :
    unpackedSign negative * unpackedSign negative' = unpackedSign (negative != negative') := by
  cases negative <;> cases negative' <;> rfl

/-- The remainder of a division tells on which side of the middle the quotient is. -/
theorem describes_quotient (dividend : ℕ) {divisor : ℕ} (h : 0 < divisor) :
    Describes (ExtendedMantissa.ofMantissaAndAccuracy (dividend / divisor)
      (accuracyOfFraction (dividend % divisor) divisor)) (dividend / divisor) := by
  have hpos : (0 : ℚ) < divisor := Nat.cast_pos.mpr h
  have hrest : (dividend : ℚ) / divisor - (dividend / divisor : ℕ) =
      (dividend % divisor : ℕ) / divisor := by
    have hsplit :
        (dividend : ℚ) = divisor * (dividend / divisor : ℕ) + (dividend % divisor : ℕ) := by
      exact_mod_cast (Nat.div_add_mod dividend divisor).symm
    rw [sub_eq_iff_eq_add, div_eq_iff (ne_of_gt hpos), add_mul, div_mul_cancel₀ _ (ne_of_gt hpos)]
    linarith
  have hless : ((dividend % divisor : ℕ) : ℚ) < divisor := Nat.cast_lt.mpr (Nat.mod_lt _ h)
  rw [Describes, mantissa_ofMantissaAndAccuracy, hrest, accuracyOfFraction]
  obtain ⟨rest, heq⟩ : ∃ rest, rest = dividend % divisor := ⟨_, rfl⟩
  rw [← heq] at hless ⊢
  split
  · next hzero =>
      change ((rest : ℚ) / divisor) = 0
      rw [hzero, Nat.cast_zero, zero_div]
  · next hne =>
      have hrestpos : (0 : ℚ) < rest := Nat.cast_pos.mpr (Nat.pos_of_ne_zero hne)
      rcases lt_trichotomy (2 * rest) divisor with hlt | hmiddle | hgt
      · have hcast : (2 : ℚ) * rest < divisor := by exact_mod_cast hlt
        rw [compare_lt_iff_lt.mpr hlt]
        change 0 < (rest : ℚ) / divisor ∧ (rest : ℚ) / divisor < 1 / 2
        exact ⟨div_pos hrestpos hpos, by rw [div_lt_div_iff₀ hpos two_pos]; linarith⟩
      · have hcast : (2 : ℚ) * rest = divisor := by exact_mod_cast hmiddle
        rw [compare_eq_iff_eq.mpr hmiddle]
        change (rest : ℚ) / divisor = 1 / 2
        rw [div_eq_div_iff (ne_of_gt hpos) two_ne_zero]
        linarith
      · have hcast : (divisor : ℚ) < 2 * rest := by exact_mod_cast hgt
        rw [compare_gt_iff_gt.mpr hgt]
        change 1 / 2 < (rest : ℚ) / divisor ∧ (rest : ℚ) / divisor < 1
        exact ⟨by rw [div_lt_div_iff₀ two_pos hpos]; linarith, (div_lt_one hpos).mpr hless⟩

/-- The quotient of two significands is given so many bits that none of the 53 is lost. -/
theorem divCore_exponent_le {dividend divisor : ℕ} {exponent exponent' : ℤ} (h : 0 < dividend)
    (h' : 0 < divisor) :
    (divCore .binary64 dividend exponent divisor exponent').2.1 ≤
      max ((divCore .binary64 dividend exponent divisor exponent').1.log2 +
        (divCore .binary64 dividend exponent divisor exponent').2.1 - 52) (-1074) := by
  obtain ⟨target, htarget⟩ : ∃ target, target = min (exponent - exponent')
      (max (totalExponent dividend exponent - totalExponent divisor exponent' - 53) (-1074)) :=
    ⟨_, rfl⟩
  obtain ⟨shift, hshift⟩ : ∃ shift : ℕ, (shift : ℤ) = exponent - exponent' - target :=
    ⟨_, Int.toNat_of_nonneg (by omega)⟩
  simp only [divCore, targetExponent_eq, ← htarget, ← hshift, Int.toNat_natCast]
  by_cases hleast : target ≤ -1074
  · exact le_max_of_le_right hleast
  refine le_max_of_le_left ?_
  rw [totalExponent, totalExponent] at htarget
  have hquotient : 2 ^ 52 ≤ dividend <<< shift / divisor := by
    rw [Nat.le_div_iff_mul_le h', Nat.shiftLeft_eq]
    calc 2 ^ 52 * divisor ≤ 2 ^ 52 * 2 ^ (divisor.log2 + 1) :=
          Nat.mul_le_mul_left _ (Nat.le_of_lt Nat.lt_log2_self)
      _ = 2 ^ (52 + (divisor.log2 + 1)) := (Nat.pow_add _ _ _).symm
      _ ≤ 2 ^ (dividend.log2 + shift) := Nat.pow_le_pow_right Nat.two_pos (by omega)
      _ = 2 ^ dividend.log2 * 2 ^ shift := Nat.pow_add _ _ _
      _ ≤ dividend * 2 ^ shift := Nat.mul_le_mul_right _ (Nat.log2_self_le (Nat.ne_of_gt h))
  have hlog := (Nat.le_log2 (by omega)).mpr hquotient
  omega

section Operations
variable {v w : Float} (hv : v.isFinite = true) (hw : w.isFinite = true)
include hv hw

theorem rounds_add : Rounds (value v + value w) (v + w) := by
  have hadd : v + w = ofUnpacked (UnpackedFloat.add .binary64 v.toModel.unpack w.toModel.unpack) :=
    rfl
  by_cases hvzero : value v = 0
  · by_cases hwzero : value w = 0
    · rw [hadd, unpack_of_value_eq_zero hvzero, unpack_of_value_eq_zero hwzero, hvzero, hwzero,
        add_zero]
      simp only [UnpackedFloat.add]
      split <;> exact rounds_zero _
    · obtain ⟨mantissa, exponent, hpos, hform, -⟩ := exists_form hw hwzero
      have hsame : v + w = w := by
        rw [hadd, unpack_of_value_eq_zero hvzero]
        conv_rhs => rw [← ofUnpacked_unpack (pattern_le_of_isFinite hw)]
        rw [hform]
        rfl
      rw [hsame, hvzero, zero_add]
      exact rounds_value (pattern_le_of_isFinite hw)
  · obtain ⟨mantissa, exponent, hpos, hform, -, -, -, habs⟩ := exists_form hv hvzero
    by_cases hwzero : value w = 0
    · have hsame : v + w = v := by
        rw [hadd, unpack_of_value_eq_zero hwzero]
        conv_rhs => rw [← ofUnpacked_unpack (pattern_le_of_isFinite hv)]
        rw [hform]
        rfl
      rw [hsame, hwzero, add_zero]
      exact rounds_value (pattern_le_of_isFinite hv)
    · obtain ⟨mantissa', exponent', hpos', hform', -, -, -, habs'⟩ := exists_form hw hwzero
      rw [hadd, hform, hform']
      refine rounds_normalize _ ?_
      rw [Int.cast_add, add_mul, apply_shiftLeft _ _ (min_le_left _ _),
        apply_shiftLeft _ _ (min_le_right _ _), value_eq_apply hpos habs, value_eq_apply hpos' habs']

theorem rounds_sub : Rounds (value v - value w) (v - w) := by
  have hw' := pattern_le_of_isFinite hw
  have hneg : (-w).isFinite = true := by
    rw [isFinite_eq, pattern_neg hw', ← isFinite_eq, hw]
  rw [sub_eq_add hw', sub_eq_add_neg, ← value_neg hw']
  exact rounds_add hv hneg

theorem rounds_mul : Rounds (value v * value w) (v * w) := by
  have hmul : v * w = ofUnpacked (UnpackedFloat.mul .binary64 v.toModel.unpack w.toModel.unpack) :=
    rfl
  by_cases hvzero : value v = 0
  · rw [hmul, unpack_of_value_eq_zero hvzero, hvzero, zero_mul]
    by_cases hwzero : value w = 0
    · rw [unpack_of_value_eq_zero hwzero]
      exact rounds_zero _
    · obtain ⟨mantissa, exponent, hpos, hform, -⟩ := exists_form hw hwzero
      rw [hform]
      exact rounds_zero _
  · obtain ⟨mantissa, exponent, hpos, hform, -, -, hnormal, habs⟩ := exists_form hv hvzero
    by_cases hwzero : value w = 0
    · rw [hmul, hform, unpack_of_value_eq_zero hwzero, hwzero, mul_zero]
      exact rounds_zero _
    · obtain ⟨mantissa', exponent', hpos', hform', -, -, hnormal', habs'⟩ := exists_form hw hwzero
      have hproduct : UnpackedFloat.mul .binary64
          (.finite (unpackedSign (negative v)) mantissa exponent hpos)
          (.finite (unpackedSign (negative w)) mantissa' exponent' hpos') =
            roundWithAccuracy .binary64 (unpackedSign (negative v != negative w))
              (mantissa * mantissa') (exponent + exponent') .exact := by
        rw [← unpackedSign_mul]
        rfl
      rw [hmul, hform, hform', hproduct]
      refine rounds_roundWithAccuracy (fun _ => ?_) (describes_exact _) ?_ ?_
      · rw [decide_mul_lt_zero hvzero hwzero, ← negative_eq_of_value hvzero,
          ← negative_eq_of_value hwzero]
      · by_cases hbits : 2 ^ 52 ≤ mantissa * mantissa'
        · have hlog := (Nat.le_log2 (by omega)).mpr hbits
          omega
        · have hsmall : ¬ 2 ^ 52 ≤ mantissa := fun h =>
            hbits (Nat.le_trans h (Nat.le_mul_of_pos_right _ hpos'))
          have hsmall' : ¬ 2 ^ 52 ≤ mantissa' := fun h =>
            hbits (Nat.le_trans h (Nat.le_mul_of_pos_left _ hpos))
          omega
      · rw [abs_mul, habs, habs', zpow_add₀ two_ne_zero, Nat.cast_mul]
        ring

theorem rounds_div (hne : value w ≠ 0) : Rounds (value v / value w) (v / w) := by
  have hdiv : v / w = ofUnpacked (UnpackedFloat.div .binary64 v.toModel.unpack w.toModel.unpack) :=
    rfl
  obtain ⟨mantissa', exponent', hpos', hform', -, -, -, habs'⟩ := exists_form hw hne
  by_cases hvzero : value v = 0
  · rw [hdiv, unpack_of_value_eq_zero hvzero, hvzero, zero_div, hform']
    exact rounds_zero _
  · obtain ⟨mantissa, exponent, hpos, hform, -, -, -, habs⟩ := exists_form hv hvzero
    have hsign : unpackedSign (negative v) / unpackedSign (negative w) =
        unpackedSign (negative v != negative w) := unpackedSign_mul _ _
    rw [hdiv, hform, hform', div_finite, hsign]
    refine rounds_roundWithAccuracy (fun _ => ?_) (describes_quotient _ hpos') ?_ ?_
    · rw [div_eq_mul_inv, decide_mul_lt_zero hvzero (inv_ne_zero hne),
        decide_eq_decide.mpr inv_lt_zero, ← negative_eq_of_value hvzero,
        ← negative_eq_of_value hne]
    · exact divCore_exponent_le hpos hpos'
    · rw [abs_div, habs, habs', mul_div_mul_comm, ← zpow_sub₀ two_ne_zero, div_mul_eq_mul_div,
        div_mul_eq_mul_div]
      exact congrArg (· / (mantissa' : ℚ))
        (apply_shiftLeft .positive mantissa (min_le_left _ _)).symm

end Operations

/-! ### What holds of rounding -/

/-- The finite doubles are those whose value is less than that of infinity. -/
theorem isFinite_iff_abs_value {v : Float} :
    v.isFinite = true ↔ |value v| < double.magnitude double.top := by
  rw [isFinite_eq, decide_eq_true_eq, abs_value, double.magnitude_strictMono.lt_iff_lt]
  rfl

theorem isFinite_of_value_eq {v w : Float} (h : value v = value w) (hw : w.isFinite = true) :
    v.isFinite = true := by
  rw [isFinite_iff_abs_value] at hw ⊢
  rwa [h]

theorem isFinite_of_between {lower upper v : Float} (hlower : lower.isFinite = true)
    (hupper : upper.isFinite = true) (h : value lower ≤ value v) (h' : value v ≤ value upper) :
    v.isFinite = true := by
  rw [isFinite_iff_abs_value, abs_lt] at hlower hupper ⊢
  exact ⟨lt_of_lt_of_le hlower.1 h, lt_of_le_of_lt h' hupper.2⟩

namespace Rounds
variable {x y : ℚ} {v w : Float}

theorem pattern_le (h : Rounds x v) : pattern v ≤ 2047 * 2 ^ 52 := by
  rw [h.pattern_eq]
  exact Nat.min_le_left _ _

theorem neg (h : Rounds x v) : Rounds (-x) (-v) := by
  refine ⟨?_, fun hne => ?_⟩
  · rw [pattern_neg h.pattern_le, h.pattern_eq, Rat.num_neg_eq_neg_num, Rat.den_neg_eq_den,
      Int.natAbs_neg]
  · have hx : x ≠ 0 := neg_ne_zero.mp hne
    rw [negative_neg h.pattern_le, h.negative_eq hx, ← decide_not, decide_eq_decide, not_lt,
      neg_lt_zero]
    exact ⟨fun hle => lt_of_le_of_ne hle hx.symm, le_of_lt⟩

theorem value_of_nonneg (h : Rounds x v) (hx : 0 ≤ x) : value v = double.magnitude (pattern v) := by
  rcases eq_or_lt_of_le hx with rfl | hpos
  · have hzero : pattern v = 0 :=
      (h.pattern_eq.trans (rounds_zero .positive).pattern_eq.symm).trans (pattern_zero _)
    rw [value_eq_zero.mpr hzero, hzero, Layout.magnitude_zero]
  · exact value_of_positive ((h.negative_eq (ne_of_gt hpos)).trans (decide_eq_false hpos.not_gt))

theorem value_of_neg (h : Rounds x v) (hx : x < 0) : value v = -double.magnitude (pattern v) :=
  value_of_negative ((h.negative_eq (ne_of_lt hx)).trans (decide_eq_true hx))

/-- The distance between a number and its nearest double is the one between their sizes. -/
theorem abs_sub_eq (h : Rounds x v) : |value v - x| = |(double.magnitude (pattern v) - |x|)| := by
  rcases le_or_gt 0 x with hx | hx
  · rw [h.value_of_nonneg hx, abs_of_nonneg hx]
  · rw [h.value_of_neg hx, abs_of_neg hx, ← abs_neg]
    congr 1
    ring

theorem pattern_mono (hv : Rounds x v) (hw : Rounds y w) (h : |x| ≤ |y|) :
    pattern v ≤ pattern w := by
  rw [hv.pattern_eq, hw.pattern_eq]
  refine Layout.nearest_mono (by decide) x.den_pos y.den_pos ?_
  rw [inUnits_num_den, inUnits_num_den]
  exact mul_le_mul_of_nonneg_right h (le_of_lt double.unitDenominator_pos)

/-- Rounding keeps the order. -/
theorem mono (hv : Rounds x v) (hw : Rounds y w) (h : x ≤ y) : value v ≤ value w := by
  have hmono := double.magnitude_strictMono.monotone
  rcases le_or_gt 0 x with hx | hx
  · have hy := le_trans hx h
    rw [hv.value_of_nonneg hx, hw.value_of_nonneg hy]
    exact hmono (hv.pattern_mono hw (abs_le_abs_of_nonneg hx h))
  · rw [hv.value_of_neg hx]
    rcases le_or_gt 0 y with hy | hy
    · rw [hw.value_of_nonneg hy]
      linarith [magnitude_nonneg (pattern v), magnitude_nonneg (pattern w)]
    · rw [hw.value_of_neg hy]
      refine neg_le_neg (hmono (hw.pattern_mono hv ?_))
      rw [abs_of_neg hx, abs_of_neg hy]
      exact neg_le_neg h

theorem le_value (hv : Rounds x v) (hw : pattern w ≤ 2047 * 2 ^ 52) (h : value w ≤ x) :
    value w ≤ value v :=
  (rounds_value hw).mono hv h

theorem value_le (hv : Rounds x v) (hw : pattern w ≤ 2047 * 2 ^ 52) (h : x ≤ value w) :
    value v ≤ value w :=
  hv.mono (rounds_value hw) h

/-- A number that is the value of a double is not changed. -/
theorem value_eq (hv : Rounds x v) (hw : pattern w ≤ 2047 * 2 ^ 52) (h : x = value w) :
    value v = x :=
  (le_antisymm (hv.value_le hw (le_of_eq h)) (hv.le_value hw (le_of_eq h.symm))).trans h.symm

theorem nearestEven (hv : Rounds x v) : NearestEven |x| (pattern v) := by
  rw [hv.pattern_eq, abs_eq_num_div_den]
  exact nearestEven_nearest x.den_pos

/-- No double is nearer. -/
theorem abs_sub_le_abs_sub (hv : Rounds x v) (hw : pattern w ≤ 2047 * 2 ^ 52) :
    |value v - x| ≤ |value w - x| := by
  rw [hv.abs_sub_eq]
  refine le_trans (hv.nearestEven.near _ hw) ?_
  rw [← abs_value]
  exact abs_abs_sub_abs_le _ _

theorem abs_sub_mul_eq (hv : Rounds x v) : |value v - x| * double.unitDenominator =
    |(double.units (pattern v) - |x| * double.unitDenominator)| := by
  rw [hv.abs_sub_eq, abs_eq_num_div_den x, abs_magnitude_sub, Layout.inUnits]

theorem abs_sub_mul_le (hv : Rounds x v) (hfinite : v.isFinite = true) :
    |value v - x| * double.unitDenominator ≤
      max (1 / 2) (|x| * double.unitDenominator / 2 ^ 53) := by
  rw [isFinite_eq, decide_eq_true_eq, hv.pattern_eq] at hfinite
  have herror := Layout.abs_nearest_sub_le_max (by decide : 0 < double.precision) x.den_pos hfinite
  have hhalf : (2 : ℚ) * double.half = 2 ^ 53 := by
    have hnat : 2 * double.half = 2 ^ 53 := by decide
    exact_mod_cast hnat
  rwa [← hv.pattern_eq, inUnits_num_den, hhalf, ← hv.abs_sub_mul_eq] at herror

/-- The error of rounding. -/
theorem abs_sub_le (hv : Rounds x v) (hfinite : v.isFinite = true) :
    |value v - x| ≤ |x| / 2 ^ 53 + 1 / 2 / double.unitDenominator := by
  have hpos := double.unitDenominator_pos
  have herror := le_trans (hv.abs_sub_mul_le hfinite)
    (max_le_add_of_nonneg (by norm_num) (by positivity))
  rw [← le_div_iff₀ hpos] at herror
  refine le_trans herror (le_of_eq ?_)
  field_simp
  ring

/-- A number of least units is rounded only where it has too many bits. -/
theorem abs_sub_le_of_units (hv : Rounds x v) (hfinite : v.isFinite = true) {n : ℕ}
    (h : |x| * double.unitDenominator = n) : |value v - x| ≤ |x| / 2 ^ 53 := by
  have hpos := double.unitDenominator_pos
  have hhalf : 2 * double.half = 2 ^ 53 := by decide
  rcases Nat.lt_or_ge n (2 ^ 53) with hlt | hge
  · have hunits : double.units n = n := by
      have hblock := double.units_block (by omega : n ≤ 2 * double.half)
        (Or.inl rfl : 0 = 0 ∨ double.half ≤ n)
      rwa [Nat.zero_mul, Nat.zero_add, pow_zero, Nat.mul_one] at hblock
    have hmagnitude : double.magnitude n = |x| := by
      rw [Layout.magnitude, hunits, ← h, mul_div_cancel_right₀ _ (ne_of_gt hpos)]
    have hnear := hv.nearestEven.near n (Nat.le_trans (Nat.le_of_lt hlt) (by decide))
    rw [hmagnitude, sub_self, abs_zero, ← hv.abs_sub_eq] at hnear
    exact le_trans hnear (by positivity)
  · have hlarge : (2 : ℚ) ^ 53 ≤ |x| * double.unitDenominator := by
      rw [h]
      exact_mod_cast hge
    have herror := hv.abs_sub_mul_le hfinite
    rw [max_eq_right, mul_div_right_comm] at herror
    · exact le_of_mul_le_mul_right herror hpos
    · rw [le_div_iff₀ (by norm_num)]
      linarith

end Rounds

end GraphCalc.Double
