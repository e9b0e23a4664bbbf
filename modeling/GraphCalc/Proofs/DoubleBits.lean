/-
Doubles by sign and pattern.  Every operation on doubles that only looks at the
bits is said in these terms: the classes, the change of sign, the magnitude, and
the order, which is the order of the patterns.
-/
import GraphCalc.Binary
import Mathlib
namespace GraphCalc.Double

open Float.Model Float.Model.UnpackedFloat

def unpackedSign (negative : Bool) : Sign :=
  if negative then .negative else .positive

/-- The unpacked form of a number: the patterns up to infinity are counted by
exponent and significand. -/
def unpacked (negative : Bool) (pattern : Nat) : UnpackedFloat :=
  if 2047 * 2 ^ 52 < pattern then .notANumber
  else if pattern = 2047 * 2 ^ 52 then .infinity (unpackedSign negative)
  else if h : pattern = 0 then .zero (unpackedSign negative)
  else if h : pattern < 2 ^ 52 then
    .finite (unpackedSign negative) pattern (-1074) (by omega)
  else
    .finite (unpackedSign negative) (2 ^ 52 + pattern % 2 ^ 52)
      ((pattern / 2 ^ 52 : Nat) - 1075) (by omega)

/-! ### Unpacking and packing -/

theorem toNat_unpackMantissa (b : BitVec Format.binary64.numBits) :
    (unpackMantissa b).toNat = b.toNat % 2 ^ 52 := by
  simp [unpackMantissa, BitVec.extractLsb]

theorem toNat_unpackExponent (b : BitVec Format.binary64.numBits) :
    (unpackExponent b).toNat = b.toNat / 2 ^ 52 % 2 ^ 11 := by
  simp [unpackExponent, BitVec.extractLsb, Nat.shiftRight_eq_div_pow]

theorem toNat_unpackSign (b : BitVec Format.binary64.numBits) :
    (unpackSign b).toNat = b.toNat / 2 ^ 63 % 2 := by
  simp [unpackSign, BitVec.extractLsb, Nat.shiftRight_eq_div_pow]

theorem toNat_one_append (m : BitVec 52) : (1#1 ++ m).toNat = 2 ^ 52 + m.toNat := by
  rw [BitVec.toNat_append, ← Nat.shiftLeft_add_eq_or_of_lt m.isLt]
  simp [Nat.shiftLeft_eq]

theorem toNat_packComponents (sign : Sign) (exponent : BitVec 11) (mantissa : BitVec 52) :
    (packComponents Format.binary64 sign exponent mantissa).toNat =
      sign.toBitVec.toNat * 2 ^ 63 + exponent.toNat * 2 ^ 52 + mantissa.toNat := by
  have hexponent := exponent.isLt
  have hmantissa := mantissa.isLt
  rw [packComponents, BitVec.toNat_append, BitVec.toNat_append,
    ← Nat.shiftLeft_add_eq_or_of_lt hexponent, ← Nat.shiftLeft_add_eq_or_of_lt hmantissa]
  simp only [Nat.shiftLeft_eq]
  omega

theorem sign_ofBitVec_unpackSign (b : BitVec Format.binary64.numBits) :
    Sign.ofBitVec (unpackSign b) = unpackedSign (decide (2 ^ 63 ≤ b.toNat)) := by
  have hlt : b.toNat < 2 ^ 64 := b.isLt
  have hsign := toNat_unpackSign b
  by_cases hnegative : 2 ^ 63 ≤ b.toNat
  · have hne : unpackSign b ≠ 0#1 := by
      intro hzero
      rw [hzero, BitVec.toNat_ofNat] at hsign
      omega
    rw [decide_eq_true hnegative]
    simp [Sign.ofBitVec, unpackedSign, hne]
  · have hzero : unpackSign b = 0#1 := by
      apply BitVec.eq_of_toNat_eq
      rw [hsign, BitVec.toNat_ofNat]
      omega
    rw [decide_eq_false hnegative]
    simp [Sign.ofBitVec, unpackedSign, hzero]

/-- The bits of every word, read as sign and pattern. -/
theorem unpack_toBitVec (b : BitVec Format.binary64.numBits) :
    UnpackedFloat.unpack Format.binary64 b =
      unpacked (decide (2 ^ 63 ≤ b.toNat)) (b.toNat % 2 ^ 63) := by
  have hlt : b.toNat < 2 ^ 64 := b.isLt
  have hmantissa := toNat_unpackMantissa b
  have hexponent := toNat_unpackExponent b
  have hones : unpackExponent b = -1#11 ↔ b.toNat / 2 ^ 52 % 2 ^ 11 = 2047 := by
    rw [← BitVec.toNat_inj, hexponent]
    rfl
  have hnone : unpackExponent b = 0#11 ↔ b.toNat / 2 ^ 52 % 2 ^ 11 = 0 := by
    rw [← BitVec.toNat_inj, hexponent]
    rfl
  have hempty : unpackMantissa b = 0#52 ↔ b.toNat % 2 ^ 52 = 0 := by
    rw [← BitVec.toNat_inj, hmantissa]
    rfl
  have hbias : (Format.binary64.exponentBias : Int) = 1023 := rfl
  simp only [UnpackedFloat.unpack, unpacked, sign_ofBitVec_unpackSign]
  by_cases hinfinite : b.toNat / 2 ^ 52 % 2 ^ 11 = 2047
  · rw [if_pos (hones.mpr hinfinite)]
    by_cases hzero : b.toNat % 2 ^ 52 = 0
    · have hpattern : b.toNat % 2 ^ 63 = 2047 * 2 ^ 52 := by omega
      rw [if_pos (hempty.mpr hzero), if_neg (Nat.not_lt_of_ge (Nat.le_of_eq hpattern)),
        if_pos hpattern]
    · have hpattern : 2047 * 2 ^ 52 < b.toNat % 2 ^ 63 := by omega
      rw [if_neg (mt hempty.mp hzero), if_pos hpattern]
  have hfinite : b.toNat % 2 ^ 63 < 2047 * 2 ^ 52 := by omega
  rw [if_neg (mt hones.mp hinfinite), if_neg (Nat.not_lt_of_gt hfinite),
    if_neg (Nat.ne_of_lt hfinite)]
  by_cases hsubnormal : b.toNat / 2 ^ 52 % 2 ^ 11 = 0
  · rw [if_pos (hnone.mpr hsubnormal)]
    by_cases hzero : b.toNat % 2 ^ 52 = 0
    · have hpattern : b.toNat % 2 ^ 63 = 0 := by omega
      rw [dif_pos (hempty.mpr hzero), dif_pos hpattern]
    · have hpattern : b.toNat % 2 ^ 63 = b.toNat % 2 ^ 52 := by omega
      have hsmall : b.toNat % 2 ^ 63 < 2 ^ 52 := by omega
      rw [dif_neg (mt hempty.mp hzero), dif_neg (by omega), dif_pos hsmall]
      congr 1
      · rw [hmantissa, hpattern]
      · rw [hexponent, hsubnormal, hbias]
        rfl
  · have hpattern : ¬ b.toNat % 2 ^ 63 = 0 := by omega
    have hlarge : ¬ b.toNat % 2 ^ 63 < 2 ^ 52 := by omega
    rw [if_neg (mt hnone.mp hsubnormal), dif_neg hpattern, dif_neg hlarge]
    congr 1
    · rw [toNat_one_append, hmantissa]
      omega
    · have hdiv : b.toNat % 2 ^ 63 / 2 ^ 52 = b.toNat / 2 ^ 52 % 2 ^ 11 := by omega
      rw [hexponent, hbias, hdiv]
      rfl

/-- A finite significand with its exponent, packed. -/
theorem toNat_pack_finite (sign : Sign) (mantissa : Nat) (exponent : Int)
    (hmantissa : 0 < mantissa) (hlt : mantissa < 2 ^ 53) (hexponent : -1074 ≤ exponent)
    (hfinite : exponent ≤ 971) (hnormal : 2 ^ 52 ≤ mantissa ∨ exponent = -1074) :
    (UnpackedFloat.pack Format.binary64 (.finite sign mantissa exponent hmantissa)).toNat =
      sign.toBitVec.toNat * 2 ^ 63 +
        ((exponent + 1074).toNat * 2 ^ 52 + mantissa) := by
  have hbias : (exponent + Format.binary64.exponentBias + (52 : Nat)).toNat =
      (exponent + 1074).toNat + 1 := by
    change (exponent + (1023 : Nat) + (52 : Nat)).toNat = _
    omega
  have hbits : Format.binary64.mantissaBits = 53 := rfl
  simp only [UnpackedFloat.pack, hbias, hbits]
  rw [if_neg (by omega)]
  by_cases hlarge : 2 ^ 52 ≤ mantissa
  · have hlog : mantissa.log2 + 1 = 53 := by
      have hle := (Nat.le_log2 (Nat.ne_of_gt hmantissa)).mpr hlarge
      have hgt := (Nat.log2_lt (Nat.ne_of_gt hmantissa)).mpr hlt
      omega
    rw [if_pos hlog, toNat_packComponents, BitVec.toNat_ofNat, BitVec.toNat_ofNat]
    omega
  · have hlog : mantissa.log2 + 1 ≠ 53 := by
      have hgt := (Nat.log2_lt (Nat.ne_of_gt hmantissa)).mpr (Nat.lt_of_not_ge hlarge)
      omega
    rw [if_neg hlog, toNat_packComponents, BitVec.toNat_ofNat, BitVec.toNat_ofNat]
    omega

theorem toNat_unpackedSign (negative : Bool) :
    (unpackedSign negative).toBitVec.toNat = if negative then 1 else 0 := by
  cases negative <;> rfl

/-- Packing gives the pattern and the sign back, but for the patterns of NaN. -/
theorem toNat_pack_unpacked (negative : Bool) {pattern : Nat}
    (h : pattern ≤ 2047 * 2 ^ 52) :
    (UnpackedFloat.pack Format.binary64 (unpacked negative pattern)).toNat =
      pattern + if negative then 2 ^ 63 else 0 := by
  rw [unpacked, if_neg (by omega)]
  by_cases hinfinite : pattern = 2047 * 2 ^ 52
  · rw [if_pos hinfinite, hinfinite]
    cases negative <;> rfl
  rw [if_neg hinfinite]
  by_cases hzero : pattern = 0
  · rw [dif_pos hzero, hzero]
    cases negative <;> rfl
  rw [dif_neg hzero]
  by_cases hsmall : pattern < 2 ^ 52
  · rw [dif_pos hsmall, toNat_pack_finite _ _ _ _ (by omega) (by omega) (by omega)
      (Or.inr rfl), toNat_unpackedSign]
    cases negative with
    | true =>
        simp
        omega
    | false => simp
  · rw [dif_neg hsmall, toNat_pack_finite _ _ _ _ (by omega) (by omega) (by omega)
      (Or.inl (by omega)), toNat_unpackedSign]
    cases negative <;> simp <;> omega

/-! ### Sign and pattern -/

theorem unpack_toModel (v : Float) :
    v.toModel.unpack = unpacked (negative v) (pattern v) :=
  unpack_toBitVec v.toModel.toBits.toBitVec

theorem toNat_toBits (v : Float) :
    v.toBits.toNat = pattern v + if negative v then 2 ^ 63 else 0 := by
  have hlt : v.toBits.toNat < 2 ^ 64 := v.toBits.toNat_lt
  have hpattern : pattern v = v.toBits.toNat % 2 ^ 63 := rfl
  cases hnegative : negative v with
  | true =>
      have hsign : 2 ^ 63 ≤ v.toBits.toNat := of_decide_eq_true hnegative
      rw [if_pos rfl]
      omega
  | false =>
      have hsign : ¬ 2 ^ 63 ≤ v.toBits.toNat := of_decide_eq_false hnegative
      rw [if_neg (Bool.false_ne_true)]
      omega

/-- A double is its sign and its pattern. -/
theorem eq_of_pattern {v w : Float} (hnegative : negative v = negative w)
    (hpattern : pattern v = pattern w) : v = w := by
  apply Float.toBits_inj.mp
  apply UInt64.toNat_inj.mp
  rw [toNat_toBits, toNat_toBits, hnegative, hpattern]

def ofUnpacked (form : UnpackedFloat) : Float :=
  .ofModel (.pack form)

theorem toNat_toBits_ofUnpacked (sign : Bool) {code : Nat} (h : code ≤ 2047 * 2 ^ 52) :
    (ofUnpacked (unpacked sign code)).toBits.toNat =
      code + if sign then 2 ^ 63 else 0 :=
  toNat_pack_unpacked sign h

theorem negative_ofUnpacked (sign : Bool) {code : Nat} (h : code ≤ 2047 * 2 ^ 52) :
    negative (ofUnpacked (unpacked sign code)) = sign := by
  rw [negative, toNat_toBits_ofUnpacked sign h]
  cases sign with
  | true => simp
  | false =>
      simp
      omega

theorem pattern_ofUnpacked (sign : Bool) {code : Nat} (h : code ≤ 2047 * 2 ^ 52) :
    pattern (ofUnpacked (unpacked sign code)) = code := by
  rw [pattern, toNat_toBits_ofUnpacked sign h]
  cases sign <;> simp <;> omega

theorem ofPattern_eq (sign : Bool) {code : Nat} (h : code ≤ 2047 * 2 ^ 52) :
    ofPattern sign code = ofUnpacked (unpacked sign code) := by
  have hunpack := unpack_toBitVec
    (UInt64.ofNat (code + if sign then 0x8000000000000000 else 0)).toBitVec
  have htoNat : (UInt64.ofNat (code + if sign then 0x8000000000000000 else 0)).toBitVec.toNat =
      code + if sign then 2 ^ 63 else 0 := by
    rw [UInt64.toBitVec_ofNat', BitVec.toNat_ofNat]
    cases sign <;> simp <;> omega
  have hsign : decide (2 ^ 63 ≤ code + if sign then 2 ^ 63 else 0) = sign := by
    cases sign with
    | true => simp
    | false =>
        simp
        omega
  have hcode : (code + if sign then 2 ^ 63 else 0) % 2 ^ 63 = code := by
    cases sign <;> simp <;> omega
  rw [htoNat, hsign, hcode] at hunpack
  rw [ofPattern, Float.ofBits, Float.Model.ofBits, hunpack]
  rfl

theorem negative_ofPattern (sign : Bool) {code : Nat} (h : code ≤ 2047 * 2 ^ 52) :
    negative (ofPattern sign code) = sign := by
  rw [ofPattern_eq sign h, negative_ofUnpacked sign h]

theorem pattern_ofPattern (sign : Bool) {code : Nat} (h : code ≤ 2047 * 2 ^ 52) :
    pattern (ofPattern sign code) = code := by
  rw [ofPattern_eq sign h, pattern_ofUnpacked sign h]

/-- Reading the parts and putting them together again changes nothing. -/
theorem ofPattern_pattern {v : Float} (h : pattern v ≤ 2047 * 2 ^ 52) :
    ofPattern (negative v) (pattern v) = v :=
  eq_of_pattern (negative_ofPattern _ h) (pattern_ofPattern _ h)

/-! ### Classes -/

theorem isNaN_eq (v : Float) : v.isNaN = decide (2047 * 2 ^ 52 < pattern v) := by
  change v.toModel.unpack.isNaN = _
  rw [unpack_toModel, unpacked]
  by_cases hnan : 2047 * 2 ^ 52 < pattern v
  · rw [if_pos hnan, decide_eq_true hnan]
    rfl
  · rw [if_neg hnan, decide_eq_false hnan]
    repeat' split
    all_goals rfl

theorem isInf_eq (v : Float) : v.isInf = decide (pattern v = 2047 * 2 ^ 52) := by
  change v.toModel.unpack.isInf = _
  rw [unpack_toModel, unpacked]
  by_cases hinfinite : pattern v = 2047 * 2 ^ 52
  · rw [if_neg (by omega), if_pos hinfinite, decide_eq_true hinfinite]
    rfl
  · rw [if_neg hinfinite, decide_eq_false hinfinite]
    repeat' split
    all_goals rfl

theorem isFinite_eq (v : Float) : v.isFinite = decide (pattern v < 2047 * 2 ^ 52) := by
  change v.toModel.unpack.isFinite = _
  rw [unpack_toModel, unpacked]
  by_cases hfinite : pattern v < 2047 * 2 ^ 52
  · rw [if_neg (by omega), if_neg (by omega), decide_eq_true hfinite]
    repeat' split
    all_goals rfl
  · rw [decide_eq_false hfinite]
    by_cases hnan : 2047 * 2 ^ 52 < pattern v
    · rw [if_pos hnan]
      rfl
    · rw [if_neg hnan, if_pos (by omega)]
      rfl

theorem isNaN_of_isFinite {v : Float} (h : v.isFinite = true) : v.isNaN = false := by
  rw [isFinite_eq, decide_eq_true_eq] at h
  rw [isNaN_eq]
  exact decide_eq_false (Nat.not_lt_of_gt h)

theorem isFinite_of_isNaN {v : Float} (h : v.isNaN = true) : v.isFinite = false := by
  cases hfinite : v.isFinite with
  | false => rfl
  | true =>
      rw [isNaN_of_isFinite hfinite] at h
      contradiction

/-! ### Sign changes -/

theorem neg_unpacked (sign : Bool) (code : Nat) :
    (unpacked sign code).neg = unpacked (!sign) code := by
  simp only [unpacked]
  repeat' split
  all_goals cases sign <;> rfl

theorem abs_unpacked (sign : Bool) (code : Nat) :
    (unpacked sign code).abs = unpacked false code := by
  simp only [unpacked]
  repeat' split
  all_goals cases sign <;> rfl

theorem neg_eq {v : Float} (h : pattern v ≤ 2047 * 2 ^ 52) :
    -v = ofPattern (!negative v) (pattern v) := by
  change ofUnpacked v.toModel.unpack.neg = _
  rw [unpack_toModel, neg_unpacked, ofPattern_eq _ h]

theorem abs_eq {v : Float} (h : pattern v ≤ 2047 * 2 ^ 52) :
    v.abs = ofPattern false (pattern v) := by
  change ofUnpacked v.toModel.unpack.abs = _
  rw [unpack_toModel, abs_unpacked, ofPattern_eq _ h]

theorem pattern_neg {v : Float} (h : pattern v ≤ 2047 * 2 ^ 52) : pattern (-v) = pattern v := by
  rw [neg_eq h, pattern_ofPattern _ h]

theorem negative_neg {v : Float} (h : pattern v ≤ 2047 * 2 ^ 52) :
    negative (-v) = !negative v := by
  rw [neg_eq h, negative_ofPattern _ h]

/-! ### The order -/

/-- Canonical significands and exponents are ordered as the patterns they pack to. -/
theorem compare_canonical {exponent exponent' : Int} {mantissa mantissa' : Nat}
    (hexponent : -1074 ≤ exponent) (hexponent' : -1074 ≤ exponent')
    (hlt : mantissa < 2 ^ 53) (hlt' : mantissa' < 2 ^ 53)
    (hnormal : 2 ^ 52 ≤ mantissa ∨ exponent = -1074)
    (hnormal' : 2 ^ 52 ≤ mantissa' ∨ exponent' = -1074) :
    (compare exponent exponent').then (compare mantissa mantissa') =
      compare ((exponent + 1074).toNat * 2 ^ 52 + mantissa)
        ((exponent' + 1074).toNat * 2 ^ 52 + mantissa') := by
  rcases Int.lt_trichotomy exponent exponent' with hless | rfl | hgreater
  · have hcodes : (exponent + 1074).toNat * 2 ^ 52 + mantissa <
        (exponent' + 1074).toNat * 2 ^ 52 + mantissa' := by omega
    rw [Int.compare_eq_lt.mpr hless, Nat.compare_eq_lt.mpr hcodes]
    rfl
  · have hcodes : compare mantissa mantissa' =
        compare ((exponent + 1074).toNat * 2 ^ 52 + mantissa)
          ((exponent + 1074).toNat * 2 ^ 52 + mantissa') := by
      rcases Nat.lt_trichotomy mantissa mantissa' with h | rfl | h
      · rw [Nat.compare_eq_lt.mpr h, Nat.compare_eq_lt.mpr (by omega)]
      · rw [Nat.compare_eq_eq.mpr rfl, Nat.compare_eq_eq.mpr rfl]
      · rw [Nat.compare_eq_gt.mpr h, Nat.compare_eq_gt.mpr (by omega)]
    rw [Int.compare_eq_eq.mpr rfl, ← hcodes]
    rfl
  · have hcodes : (exponent' + 1074).toNat * 2 ^ 52 + mantissa' <
        (exponent + 1074).toNat * 2 ^ 52 + mantissa := by omega
    rw [Int.compare_eq_gt.mpr hgreater, Nat.compare_eq_gt.mpr hcodes]
    rfl

/-- A finite pattern that is not zero has a canonical significand and exponent. -/
theorem exists_canonical (sign : Bool) {code : Nat} (hpos : 0 < code)
    (hfinite : code < 2047 * 2 ^ 52) :
    ∃ (mantissa : Nat) (exponent : Int) (h : 0 < mantissa),
      unpacked sign code = .finite (unpackedSign sign) mantissa exponent h ∧
      -1074 ≤ exponent ∧ mantissa < 2 ^ 53 ∧ (2 ^ 52 ≤ mantissa ∨ exponent = -1074) ∧
      code = (exponent + 1074).toNat * 2 ^ 52 + mantissa := by
  rw [unpacked, if_neg (by omega), if_neg (by omega), dif_neg (by omega)]
  by_cases hsmall : code < 2 ^ 52
  · rw [dif_pos hsmall]
    exact ⟨_, _, _, rfl, by omega, by omega, Or.inr rfl, by omega⟩
  · rw [dif_neg hsmall]
    exact ⟨_, _, _, rfl, by omega, by omega, Or.inl (by omega), by omega⟩

theorem unpacked_zero (sign : Bool) : unpacked sign 0 = .zero (unpackedSign sign) :=
  rfl

theorem unpacked_infinity (sign : Bool) :
    unpacked sign (2047 * 2 ^ 52) = .infinity (unpackedSign sign) :=
  rfl

/-- Magnitudes are ordered as their patterns. -/
theorem compare_unpacked {code code' : Nat} (h : code ≤ 2047 * 2 ^ 52)
    (h' : code' ≤ 2047 * 2 ^ 52) :
    (unpacked false code).compare (unpacked false code') = some (compare code code') := by
  have hzero : code = 0 ∨ 0 < code ∧ code < 2047 * 2 ^ 52 ∨ code = 2047 * 2 ^ 52 := by omega
  have hzero' : code' = 0 ∨ 0 < code' ∧ code' < 2047 * 2 ^ 52 ∨ code' = 2047 * 2 ^ 52 := by
    omega
  rcases hzero with rfl | ⟨hpos, hfinite⟩ | rfl <;>
    rcases hzero' with rfl | ⟨hpos', hfinite'⟩ | rfl
  · rfl
  · obtain ⟨mantissa, exponent, hmantissa, heq, -⟩ := exists_canonical false hpos' hfinite'
    rw [heq, unpacked_zero, Nat.compare_eq_lt.mpr hpos']
    rfl
  · rfl
  · obtain ⟨mantissa, exponent, hmantissa, heq, -⟩ := exists_canonical false hpos hfinite
    rw [heq, unpacked_zero, Nat.compare_eq_gt.mpr hpos]
    rfl
  · obtain ⟨mantissa, exponent, hmantissa, heq, hexponent, hlt, hnormal, hcode⟩ :=
      exists_canonical false hpos hfinite
    obtain ⟨mantissa', exponent', hmantissa', heq', hexponent', hlt', hnormal', hcode'⟩ :=
      exists_canonical false hpos' hfinite'
    rw [heq, heq', hcode, hcode',
      ← compare_canonical hexponent hexponent' hlt hlt' hnormal hnormal']
    rfl
  · obtain ⟨mantissa, exponent, hmantissa, heq, -⟩ := exists_canonical false hpos hfinite
    rw [heq, unpacked_infinity, Nat.compare_eq_lt.mpr hfinite]
    rfl
  · rfl
  · obtain ⟨mantissa, exponent, hmantissa, heq, -⟩ := exists_canonical false hpos' hfinite'
    rw [heq, unpacked_infinity, Nat.compare_eq_gt.mpr hfinite']
    rfl
  · rfl

section Order
variable {v w : Float}

theorem compare_magnitudes (hv : negative v = false) (hw : negative w = false)
    (hnumber : pattern v ≤ 2047 * 2 ^ 52) (hnumber' : pattern w ≤ 2047 * 2 ^ 52) :
    v.toModel.unpack.compare w.toModel.unpack = some (compare (pattern v) (pattern w)) := by
  rw [unpack_toModel, unpack_toModel, hv, hw, compare_unpacked hnumber hnumber']

theorem lt_iff (hv : negative v = false) (hw : negative w = false)
    (hnumber : pattern v ≤ 2047 * 2 ^ 52) (hnumber' : pattern w ≤ 2047 * 2 ^ 52) :
    v < w ↔ pattern v < pattern w := by
  change (decide ((v.toModel.unpack.compare w.toModel.unpack == some .lt) = true)) = true ↔ _
  rw [compare_magnitudes hv hw hnumber hnumber', ← Nat.compare_eq_lt]
  simp

theorem le_iff (hv : negative v = false) (hw : negative w = false)
    (hnumber : pattern v ≤ 2047 * 2 ^ 52) (hnumber' : pattern w ≤ 2047 * 2 ^ 52) :
    v ≤ w ↔ pattern v ≤ pattern w := by
  change (decide ((v.toModel.unpack.compare w.toModel.unpack).any (·.isLE) = true)) = true ↔ _
  rw [compare_magnitudes hv hw hnumber hnumber', ← Nat.isLE_compare]
  simp

end Order

/-- The three kinds of forms that are numbers. -/
theorem unpacked_cases (sign : Bool) {code : Nat} (h : code ≤ 2047 * 2 ^ 52) :
    (code = 0 ∧ unpacked sign code = .zero (unpackedSign sign)) ∨
      (∃ (mantissa : Nat) (exponent : Int) (hmantissa : 0 < mantissa), 0 < code ∧
        unpacked sign code = .finite (unpackedSign sign) mantissa exponent hmantissa) ∨
      0 < code ∧ unpacked sign code = .infinity (unpackedSign sign) := by
  have hcases : code = 0 ∨ 0 < code ∧ code < 2047 * 2 ^ 52 ∨ code = 2047 * 2 ^ 52 := by omega
  rcases hcases with rfl | ⟨hpos, hfinite⟩ | rfl
  · exact Or.inl ⟨rfl, rfl⟩
  · obtain ⟨mantissa, exponent, hmantissa, heq, -⟩ := exists_canonical sign hpos hfinite
    exact Or.inr (Or.inl ⟨mantissa, exponent, hmantissa, hpos, heq⟩)
  · exact Or.inr (Or.inr ⟨by decide, rfl⟩)

section Zero
variable {v : Float} (h : pattern v ≤ 2047 * 2 ^ 52)
include h

theorem compare_zero :
    v.toModel.unpack.compare (0.0 : Float).toModel.unpack =
      some (if pattern v = 0 then .eq else if negative v then .lt else .gt) := by
  have hnegative : negative 0.0 = false := by decide +kernel
  have hpattern : pattern 0.0 = 0 := by decide +kernel
  rw [unpack_toModel, unpack_toModel, hnegative, hpattern]
  rcases unpacked_cases (negative v) h with
    ⟨hzero, heq⟩ | ⟨mantissa, exponent, hmantissa, hpos, heq⟩ | ⟨hpos, heq⟩
  · rw [heq, if_pos hzero]
    cases negative v <;> rfl
  · rw [heq, if_neg (Nat.ne_of_gt hpos)]
    cases negative v <;> rfl
  · rw [heq, if_neg (Nat.ne_of_gt hpos)]
    cases negative v <;> rfl

/-- The zeros of both signs are the numbers that equal zero. -/
theorem beq_zero_eq : (v == 0.0) = decide (pattern v = 0) := by
  change (v.toModel.unpack.compare (0.0 : Float).toModel.unpack == some .eq) = _
  rw [compare_zero h]
  by_cases hzero : pattern v = 0
  · rw [if_pos hzero, decide_eq_true hzero]
    rfl
  · rw [if_neg hzero, decide_eq_false hzero]
    cases negative v <;> rfl

/-- The numbers below zero have a sign and are not zero. -/
theorem lt_zero_iff : v < 0.0 ↔ negative v = true ∧ pattern v ≠ 0 := by
  change (decide ((v.toModel.unpack.compare (0.0 : Float).toModel.unpack == some .lt) = true)) =
    true ↔ _
  rw [compare_zero h]
  by_cases hzero : pattern v = 0
  · simp [hzero]
  · cases negative v <;> simp [hzero]

end Zero

/-- A number with a sign is not above a number without one. -/
theorem not_lt_of_negative {v w : Float} (hv : negative v = false) (hw : negative w = true)
    (hnumber : pattern v ≤ 2047 * 2 ^ 52) (hnumber' : pattern w ≤ 2047 * 2 ^ 52) :
    ¬ v < w := by
  change ¬ (decide ((v.toModel.unpack.compare w.toModel.unpack == some .lt) = true)) = true
  rw [unpack_toModel, unpack_toModel, hv, hw]
  rcases unpacked_cases false hnumber with ⟨-, heq⟩ | ⟨_, _, _, -, heq⟩ | ⟨-, heq⟩ <;>
    rcases unpacked_cases true hnumber' with ⟨-, heq'⟩ | ⟨_, _, _, -, heq'⟩ | ⟨-, heq'⟩ <;>
      rw [heq, heq'] <;> exact Bool.false_ne_true

end GraphCalc.Double
