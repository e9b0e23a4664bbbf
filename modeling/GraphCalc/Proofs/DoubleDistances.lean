/-
Distances of doubles.  A whole number that fits in 53 bits is a finite double without
a sign; the difference of two finite doubles is a number, an infinity less anything
else is infinite, and an infinity less itself is NaN.  Together they say what a
comparison of a distance with a bound lets through.
-/
import GraphCalc.Proofs.DoubleArithmetic
namespace GraphCalc.Double

open Float.Model Float.Model.UnpackedFloat

/-! ### Whole numbers -/

theorem zero_bounds : negative (ofUnpacked (.zero .positive)) = false ∧
    pattern (ofUnpacked (.zero .positive)) = 0 := by
  have hform : UnpackedFloat.zero .positive = unpacked false 0 := rfl
  rw [hform]
  exact ⟨negative_ofUnpacked false (Nat.zero_le _), pattern_ofUnpacked false (Nat.zero_le _)⟩

/-- Without a sign a form with a significand is packed to a number without one. -/
theorem negative_ofUnpacked_positive {mantissa : Nat} (exponent : Int) (hmantissa : 0 < mantissa) :
    negative (ofUnpacked (.finite .positive mantissa exponent hmantissa)) = false := by
  obtain ⟨code, hbits, hcode, -⟩ := exists_toNat_ofUnpacked .positive exponent hmantissa
  have hsign : Sign.positive.toBitVec.toNat = 0 := rfl
  rw [negative, hbits, hsign]
  exact decide_eq_false (by omega)

/-- A significand without a sign is rounded to a number without one, and the pattern is
smaller the smaller the exponent is. -/
theorem round_bounds (mantissa : Nat) (exponent : Int) {limit : Nat} (hlow : 2 ≤ limit)
    (hhigh : limit ≤ 2046) (hexponent : exponent + 1076 ≤ limit)
    (htotal : mantissa.log2 + exponent + 1024 ≤ limit) :
    negative (ofUnpacked (roundWithAccuracy .binary64 .positive mantissa exponent .exact)) =
        false ∧
      pattern (ofUnpacked (roundWithAccuracy .binary64 .positive mantissa exponent .exact)) <
        (limit + 1) * 2 ^ 52 := by
  rcases roundWithAccuracy_cases .positive mantissa exponent .exact with
    hzero | ⟨rounded, power, hrounded, hfinite, hpower⟩
  · rw [hzero, zero_bounds.2]
    exact ⟨zero_bounds.1, by omega⟩
  · rw [hfinite]
    exact ⟨negative_ofUnpacked_positive power hrounded,
      pattern_ofUnpacked_lt .positive hrounded hhigh (by omega)⟩

/-- A positive whole number is shifted before it is rounded, so that no bit is lost. -/
theorem normalize_natCast {n : Nat} (hpos : 0 < n) : ∃ shift : Nat,
    UnpackedFloat.normalize .binary64 (n : Int) 0 .positive =
      roundWithAccuracy .binary64 .positive (n <<< shift) (0 - shift) .exact := by
  have hcompare : compare (n : Int) 0 = .gt := Int.compare_eq_gt.mpr (by omega)
  refine ⟨(0 - Format.binary64.targetExponent (totalExponent n 0)).toNat, ?_⟩
  simp only [UnpackedFloat.normalize, hcompare, UnpackedFloat.round, Int.toNat_natCast,
    decreaseExponent]

/-- A whole number below two to the 53 is not negative, and its exponent is at most one. -/
theorem toFloat_bounds {n : Nat} (h : n < 2 ^ 53) :
    negative n.toUInt64.toFloat = false ∧ pattern n.toUInt64.toFloat < 1077 * 2 ^ 52 := by
  have hnumber : n.toUInt64.toNat = n := by
    rw [Nat.toUInt64_eq, UInt64.toNat_ofNat']
    omega
  have hform : n.toUInt64.toFloat =
      ofUnpacked (UnpackedFloat.normalize .binary64 (n : Int) 0 .positive) := by
    change ofUnpacked (UnpackedFloat.normalize .binary64 (n.toUInt64.toNat : Int) 0 .positive) = _
    rw [hnumber]
  rw [hform]
  rcases Nat.eq_zero_or_pos n with rfl | hpos
  · exact ⟨zero_bounds.1, zero_bounds.2 ▸ by decide⟩
  · obtain ⟨shift, hround⟩ := normalize_natCast hpos
    have hlog : (n <<< shift).log2 ≤ 52 + shift := by
      refine Nat.le_of_lt_succ ((Nat.log2_lt (by simp; omega)).mpr ?_)
      rw [Nat.shiftLeft_eq, Nat.succ_eq_add_one, Nat.add_right_comm, Nat.pow_add]
      exact Nat.mul_lt_mul_of_pos_right h (Nat.two_pow_pos shift)
    rw [hround]
    exact round_bounds (n <<< shift) (0 - shift) (by decide) (by decide) (by omega) (by omega)

/-- The forms of the numbers without a sign up to two to the 477. -/
theorem moderate_cases {code : Nat} (h : code ≤ 1500 * 2 ^ 52) :
    unpacked false code = .zero .positive ∨
      ∃ (mantissa : Nat) (exponent : Int) (hmantissa : 0 < mantissa),
        unpacked false code = .finite .positive mantissa exponent hmantissa ∧
          mantissa < 2 ^ 53 ∧ exponent ≤ 426 := by
  rcases Nat.eq_zero_or_pos code with rfl | hpos
  · exact Or.inl (unpacked_zero false)
  · obtain ⟨mantissa, exponent, hmantissa, hform, hexponent, hlt, hnormal, hcode⟩ :=
      exists_canonical false hpos (by omega)
    exact Or.inr ⟨mantissa, exponent, hmantissa, hform, hlt, by omega⟩

/-- The product of two such numbers is finite and has no sign. -/
theorem mul_bounds {v w : Float} (hv : negative v = false) (hw : negative w = false)
    (hmoderate : pattern v ≤ 1500 * 2 ^ 52) (hmoderate' : pattern w ≤ 1500 * 2 ^ 52) :
    negative (v * w) = false ∧ (v * w).isFinite = true := by
  have hmul : v * w = ofUnpacked (mul .binary64 v.toModel.unpack w.toModel.unpack) := rfl
  have hzero : negative (ofUnpacked (.zero .positive)) = false ∧
      (ofUnpacked (.zero .positive)).isFinite = true := ⟨zero_bounds.1, isFinite_zero .positive⟩
  rw [hmul, unpack_toModel, unpack_toModel, hv, hw]
  rcases moderate_cases hmoderate with hform | ⟨mantissa, exponent, hmantissa, hform, hlt, hle⟩ <;>
    rcases moderate_cases hmoderate' with
      hform' | ⟨mantissa', exponent', hmantissa', hform', hlt', hle'⟩ <;>
    rw [hform, hform']
  · exact hzero
  · exact hzero
  · exact hzero
  · have hround : mul .binary64 (.finite .positive mantissa exponent hmantissa)
        (.finite .positive mantissa' exponent' hmantissa') =
          roundWithAccuracy .binary64 .positive (mantissa * mantissa') (exponent + exponent')
            .exact := rfl
    have hlog : (mantissa * mantissa').log2 ≤ 105 := by
      refine Nat.le_of_lt_succ ((Nat.log2_lt (by positivity)).mpr ?_)
      calc mantissa * mantissa' < 2 ^ 53 * 2 ^ 53 := Nat.mul_lt_mul'' hlt hlt'
        _ = 2 ^ 106 := by norm_num
    rw [hround, isFinite_eq, decide_eq_true_eq]
    exact round_bounds (mantissa * mantissa') (exponent + exponent') (by decide)
      (Nat.le_refl 2046) (by omega) (by omega)

/-- A whole number below two to the 53 is a finite double without a sign. -/
theorem ofNat_bounds {n : Nat} (h : n < 2 ^ 53) :
    negative (Float.ofNat n) = false ∧ (Float.ofNat n).isFinite = true := by
  obtain ⟨one, hone⟩ : ∃ one, one = ofPattern false (1023 * 2 ^ 52) := ⟨_, rfl⟩
  have hproduct : Float.ofNat n = n.toUInt64.toFloat * one := by
    rw [hone]
    exact dif_pos ⟨h, Nat.zero_le 22⟩
  have hunit : negative one = false ∧ pattern one = 1023 * 2 ^ 52 := by
    rw [hone]
    exact ⟨negative_ofPattern false (by decide), pattern_ofPattern false (by decide)⟩
  obtain ⟨hnegative, hpattern⟩ := toFloat_bounds h
  rw [hproduct]
  exact mul_bounds hnegative hunit.1 (by omega) (by omega)

/-! ### Differences -/

theorem le_of_isNaN_eq_false {v : Float} (h : v.isNaN = false) : pattern v ≤ 2047 * 2 ^ 52 := by
  rw [isNaN_eq, decide_eq_false_iff_not] at h
  exact Nat.le_of_not_lt h

theorem isFinite_or_isInf {v : Float} (h : v.isNaN = false) :
    v.isFinite = true ∨ v.isInf = true := by
  have hle := le_of_isNaN_eq_false h
  rw [isFinite_eq, isInf_eq, decide_eq_true_eq, decide_eq_true_eq]
  exact Nat.lt_or_eq_of_le hle

theorem isInf_of_isFinite {v : Float} (h : v.isFinite = true) : v.isInf = false := by
  rw [isFinite_eq, decide_eq_true_eq] at h
  rw [isInf_eq]
  exact decide_eq_false (Nat.ne_of_lt h)

theorem isFinite_of_isInf {v : Float} (h : v.isInf = true) : v.isFinite = false := by
  rw [isInf_eq, decide_eq_true_eq] at h
  rw [isFinite_eq, h]
  rfl

theorem isNaN_of_isInf {v : Float} (h : v.isInf = true) : v.isNaN = false := by
  rw [isInf_eq, decide_eq_true_eq] at h
  rw [isNaN_eq]
  exact decide_eq_false (Nat.not_lt_of_le (Nat.le_of_eq h))

theorem pattern_infinity (sign : Sign) :
    pattern (ofUnpacked (.infinity sign)) = 2047 * 2 ^ 52 := by
  obtain ⟨negative, rfl⟩ := exists_unpackedSign sign
  rw [← unpacked_infinity, pattern_ofUnpacked negative (Nat.le_refl _)]

theorem isInf_infinity (sign : Sign) : (ofUnpacked (.infinity sign)).isInf = true := by
  rw [isInf_eq]
  exact decide_eq_true (pattern_infinity sign)

theorem isNaN_ofUnpacked {form : UnpackedFloat} (h : form ≠ .notANumber) :
    (ofUnpacked form).isNaN = false := by
  cases form with
  | notANumber => contradiction
  | infinity sign => exact isNaN_of_isInf (isInf_infinity sign)
  | zero sign => exact isNaN_of_isFinite (isFinite_zero sign)
  | finite sign mantissa exponent hmantissa =>
      rw [isNaN_eq]
      exact decide_eq_false (Nat.not_lt_of_ge (pattern_ofUnpacked_le sign exponent hmantissa))

theorem roundWithAccuracy_ne (sign : Sign) (mantissa : Nat) (exponent : Int)
    (accuracy : Accuracy) :
    roundWithAccuracy .binary64 sign mantissa exponent accuracy ≠ .notANumber := by
  rcases roundWithAccuracy_cases sign mantissa exponent accuracy with
    hzero | ⟨rounded, power, hrounded, hfinite, -⟩
  · rw [hzero]
    exact UnpackedFloat.noConfusion
  · rw [hfinite]
    exact UnpackedFloat.noConfusion

theorem normalize_ne (mantissa exponent : Int) (sign : Sign) :
    UnpackedFloat.normalize .binary64 mantissa exponent sign ≠ .notANumber := by
  simp only [UnpackedFloat.normalize]
  split
  · exact roundWithAccuracy_ne _ _ _ _
  · exact UnpackedFloat.noConfusion
  · exact roundWithAccuracy_ne _ _ _ _

theorem sub_ne_notANumber {left right : UnpackedFloat} (hleft : left.isFinite = true)
    (hright : right.isFinite = true) : sub .binary64 left right ≠ .notANumber := by
  cases left with
  | notANumber | infinity _ => contradiction
  | zero sign =>
      cases right with
      | notANumber | infinity _ => contradiction
      | zero sign' => cases sign <;> cases sign' <;> exact UnpackedFloat.noConfusion
      | finite sign' mantissa exponent hmantissa => exact UnpackedFloat.noConfusion
  | finite sign mantissa exponent hmantissa =>
      cases right with
      | notANumber | infinity _ => contradiction
      | zero sign' => exact UnpackedFloat.noConfusion
      | finite sign' mantissa' exponent' hmantissa' => exact normalize_ne _ _ _

/-- The difference of two finite doubles is a number. -/
theorem isNaN_sub_of_isFinite {v w : Float} (hv : v.isFinite = true) (hw : w.isFinite = true) :
    (v - w).isNaN = false :=
  isNaN_ofUnpacked (sub_ne_notANumber hv hw)

theorem isNaN_sub_right (v : Float) {w : Float} (h : w.isNaN = true) : (v - w).isNaN = true := by
  have hsub : v - w = ofUnpacked (sub .binary64 v.toModel.unpack w.toModel.unpack) := rfl
  have hform (form : UnpackedFloat) : sub .binary64 form .notANumber = .notANumber := by
    cases form <;> rfl
  rw [hsub, unpack_of_isNaN h, hform]
  exact isNaN_notANumber

theorem unpack_of_isInf {v : Float} (h : v.isInf = true) :
    v.toModel.unpack = .infinity (unpackedSign (negative v)) := by
  rw [isInf_eq, decide_eq_true_eq] at h
  rw [unpack_toModel, h, unpacked_infinity]

/-- An infinity less itself is not a number. -/
theorem isNaN_sub_self {v : Float} (h : v.isInf = true) : (v - v).isNaN = true := by
  have hsub : v - v = ofUnpacked (sub .binary64 v.toModel.unpack v.toModel.unpack) := rfl
  rw [hsub, unpack_of_isInf h]
  cases negative v <;> exact isNaN_notANumber

theorem infinity_sub {form : UnpackedFloat} (sign : Sign) (h : form.isFinite = true) :
    sub .binary64 (.infinity sign) form = .infinity sign := by
  cases form with
  | notANumber | infinity _ => contradiction
  | zero _ | finite _ _ _ _ => rfl

theorem sub_infinity {form : UnpackedFloat} (sign : Sign) (h : form.isFinite = true) :
    sub .binary64 form (.infinity sign) = .infinity (-sign) := by
  cases form with
  | notANumber | infinity _ => contradiction
  | zero _ | finite _ _ _ _ => rfl

/-- The difference of two numbers is infinite if one is, and the two are not the same. -/
theorem isInf_sub {v w : Float} (hv : v.isNaN = false) (hw : w.isNaN = false) (hne : v ≠ w)
    (hinfinite : v.isInf = true ∨ w.isInf = true) : (v - w).isInf = true := by
  have hsub : v - w = ofUnpacked (sub .binary64 v.toModel.unpack w.toModel.unpack) := rfl
  rw [hsub]
  rcases isFinite_or_isInf hv with hvfinite | hvinfinite
  · have hwinfinite : w.isInf = true := by
      apply hinfinite.resolve_left
      rw [isInf_of_isFinite hvfinite]
      exact Bool.false_ne_true
    rw [unpack_of_isInf hwinfinite, sub_infinity _ hvfinite]
    exact isInf_infinity _
  rcases isFinite_or_isInf hw with hwfinite | hwinfinite
  · rw [unpack_of_isInf hvinfinite, infinity_sub _ hwfinite]
    exact isInf_infinity _
  · have hsigns : negative v ≠ negative w := by
      intro hsign
      rw [isInf_eq, decide_eq_true_eq] at hvinfinite hwinfinite
      exact hne (eq_of_pattern hsign (hvinfinite.trans hwinfinite.symm))
    rw [unpack_of_isInf hvinfinite, unpack_of_isInf hwinfinite]
    cases hvsign : negative v <;> cases hwsign : negative w
    · exact absurd (hvsign.trans hwsign.symm) hsigns
    · exact isInf_infinity .positive
    · exact isInf_infinity .negative
    · exact absurd (hvsign.trans hwsign.symm) hsigns

/-! ### Comparing a distance with a bound -/

/-- Only finite numbers have a finite difference. -/
theorem isFinite_of_isFinite_sub {v w : Float} (h : (v - w).isFinite = true) :
    v.isFinite = true ∧ w.isFinite = true := by
  have hnumber := isNaN_of_isFinite h
  have hfinite := isInf_of_isFinite h
  have hv : v.isNaN = false := by
    by_contra hnan
    rw [Bool.not_eq_false] at hnan
    rw [(isNaN_arithmetic hnan w).2.1] at hnumber
    contradiction
  have hw : w.isNaN = false := by
    by_contra hnan
    rw [Bool.not_eq_false] at hnan
    rw [isNaN_sub_right v hnan] at hnumber
    contradiction
  by_cases hne : v = w
  · subst hne
    refine (isFinite_or_isInf hv).elim (fun hv => ⟨hv, hv⟩) (fun hinfinite => ?_)
    rw [isNaN_sub_self hinfinite] at hnumber
    contradiction
  · have hnone : ¬ (v.isInf = true ∨ w.isInf = true) := by
      intro hinfinite
      rw [isInf_sub hv hw hne hinfinite] at hfinite
      contradiction
    rw [not_or] at hnone
    exact ⟨(isFinite_or_isInf hv).resolve_right hnone.1,
      (isFinite_or_isInf hw).resolve_right hnone.2⟩

theorem not_lt_abs_of_isNaN {v : Float} (bound : Float) (h : v.isNaN = true) :
    ¬ bound < v.abs := by
  have hunpack : v.abs.toModel.unpack = .notANumber := by
    apply unpack_of_isNaN
    change (ofUnpacked v.toModel.unpack.abs).isNaN = true
    rw [unpack_of_isNaN h]
    exact isNaN_notANumber
  change ¬ (decide ((bound.toModel.unpack.compare v.abs.toModel.unpack == some .lt) = true)) = true
  rw [hunpack]
  cases bound.toModel.unpack <;> exact Bool.false_ne_true

section Distance
variable {bound : Float} (hfinite : bound.isFinite = true) (hsign : negative bound = false)
include hfinite hsign

theorem lt_abs_iff {v : Float} (h : v.isNaN = false) :
    (bound < v.abs ↔ pattern bound < pattern v) ∧ (v.abs ≤ bound ↔ pattern v ≤ pattern bound) := by
  have hv := le_of_isNaN_eq_false h
  have hbound := le_of_isNaN_eq_false (isNaN_of_isFinite hfinite)
  have hpattern : pattern v.abs = pattern v := by rw [abs_eq hv, pattern_ofPattern false hv]
  have hnegative : negative v.abs = false := by rw [abs_eq hv, negative_ofPattern false hv]
  rw [lt_iff hsign hnegative hbound (hpattern ▸ hv), le_iff hnegative hsign (hpattern ▸ hv) hbound,
    hpattern]
  exact ⟨Iff.rfl, Iff.rfl⟩

/-- Numbers one of which is infinite are further apart, unless they are the same. -/
theorem lt_abs_sub {v w : Float} (hv : v.isNaN = false) (hw : w.isNaN = false) (hne : w ≠ v)
    (hinfinite : w.isInf = true ∨ v.isInf = true) : bound < (w - v).abs := by
  have hdifference := isInf_sub hw hv hne hinfinite
  rw [(lt_abs_iff hfinite hsign (isNaN_of_isInf hdifference)).1]
  rw [isFinite_eq, decide_eq_true_eq] at hfinite
  rw [isInf_eq, decide_eq_true_eq] at hdifference
  rwa [hdifference]

/-- What a comparison that asks for more than the bound lets through: numbers within the
bound, NaN on either side, and an infinity beside itself. -/
theorem not_lt_abs_sub_iff {v w : Float} : ¬ bound < (w - v).abs ↔
    (v.isFinite = true ∧ w.isFinite = true ∧ (w - v).abs ≤ bound) ∨
      (v.isNaN = true ∨ w.isNaN = true) ∨ v.isInf = true ∧ w = v := by
  by_cases hnan : v.isNaN = true ∨ w.isNaN = true
  · refine iff_of_true (not_lt_abs_of_isNaN bound ?_) (Or.inr (Or.inl hnan))
    rcases hnan with hv | hw
    · exact isNaN_sub_right w hv
    · exact (isNaN_arithmetic hw v).2.1
  by_cases hsame : v.isInf = true ∧ w = v
  · refine iff_of_true (not_lt_abs_of_isNaN bound ?_) (Or.inr (Or.inr hsame))
    rw [hsame.2]
    exact isNaN_sub_self hsame.1
  rw [or_iff_left (not_or_intro hnan hsame)]
  rw [not_or, Bool.not_eq_true, Bool.not_eq_true] at hnan
  by_cases hboth : v.isFinite = true ∧ w.isFinite = true
  · obtain ⟨hlt, hle⟩ := lt_abs_iff hfinite hsign (isNaN_sub_of_isFinite hboth.2 hboth.1)
    rw [hlt, hle, Nat.not_lt]
    exact ⟨fun h => ⟨hboth.1, hboth.2, h⟩, fun h => h.2.2⟩
  · have hinfinite : w.isInf = true ∨ v.isInf = true := by
      rcases isFinite_or_isInf hnan.1 with hv | hv
      · exact Or.inl ((isFinite_or_isInf hnan.2).resolve_left (fun hw => hboth ⟨hv, hw⟩))
      · exact Or.inr hv
    have hne : w ≠ v := by
      rintro rfl
      exact hsame ⟨hinfinite.elim id id, rfl⟩
    have hless := lt_abs_sub hfinite hsign hnan.1 hnan.2 hne hinfinite
    exact iff_of_false (not_not_intro hless) (fun h => hboth ⟨h.1, h.2.1⟩)

end Distance

end GraphCalc.Double
