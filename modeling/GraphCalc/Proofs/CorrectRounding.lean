/-
Correct rounding.  The significand of an exact result is shifted until it has 53 bits;
two more bits keep of the rest what rounding asks about, so that the result is the
double nearest to the exact number.
-/
import GraphCalc.Proofs.DoubleValues
namespace GraphCalc

theorem RoundsTo.of_abs_lt {x : ℚ} {m : ℕ} (h : |(m : ℚ) - x| < 1 / 2) : RoundsTo x m :=
  ⟨le_of_lt h, fun heq => absurd heq (ne_of_lt h)⟩

namespace Layout

section Block
variable {layout : Layout} {n d block m : ℕ}

/-- The last magnitude of a block is the first of the next one. -/
theorem roundsTo_next {x : ℚ} {block' : ℕ} (hround : RoundsTo (x / 2 ^ block) m)
    (hle : m ≤ 2 * layout.half) (hless : block < block')
    (hnext : layout.half * 2 ^ block' ≤ x) (hhalf : 1 ≤ layout.half) :
    m = 2 * layout.half ∧ block' = block + 1 ∧ RoundsTo (x / 2 ^ block') layout.half := by
  obtain ⟨more, rfl⟩ : ∃ more, block' = block + (more + 1) := ⟨block' - block - 1, by omega⟩
  have hpow : (0 : ℚ) < 2 ^ block := by positivity
  have hone : (1 : ℚ) ≤ layout.half := by exact_mod_cast hhalf
  rw [pow_add, ← mul_assoc, mul_right_comm, ← le_div_iff₀ hpow, pow_succ] at hnext
  rw [pow_add, ← div_div, pow_succ]
  obtain ⟨y, hy⟩ : ∃ y, y = x / 2 ^ block := ⟨_, rfl⟩
  rw [← hy] at hround hnext ⊢
  have hupper := (abs_le.mp hround.near).1
  have hcast : (m : ℚ) ≤ 2 * layout.half := by exact_mod_cast hle
  obtain rfl : more = 0 := by
    by_contra hmore
    have hfour : (2 : ℚ) ^ 1 ≤ 2 ^ more :=
      pow_le_pow_right₀ (by norm_num) (Nat.one_le_iff_ne_zero.mpr hmore)
    nlinarith
  rw [pow_zero, one_mul] at hnext ⊢
  refine ⟨Nat.le_antisymm hle (hround.le_of_natCast_le ?_), rfl, RoundsTo.of_abs_lt ?_⟩
  · rw [Nat.cast_mul, Nat.cast_ofNat]
    linarith
  · rw [abs_lt]
    constructor <;> linarith

/-- The nearest pattern is the one that is nearest in its block. -/
theorem nearest_eq (hprecision : 0 < layout.precision) (hd : 0 < d)
    (hround : RoundsTo (layout.inUnits n d / 2 ^ block) m) (hle : m ≤ 2 * layout.half)
    (hblock : block = 0 ∨ layout.half * 2 ^ block ≤ layout.inUnits n d) :
    layout.nearest n d = min layout.top (block * layout.half + m) := by
  obtain ⟨block', m', hnearest, hround', hle', hblock'⟩ :=
    exists_nearest n hprecision hd
  rw [hnearest]
  have hone : 1 ≤ layout.half := layout.half_pos
  rcases lt_trichotomy block block' with hless | rfl | hgreater
  · obtain ⟨rfl, rfl, hnext⟩ := roundsTo_next hround hle hless
      (hblock'.resolve_left (by omega)) hone
    rw [hround'.unique hnext, Nat.add_mul, Nat.one_mul, Nat.two_mul, Nat.add_assoc]
  · rw [hround.unique hround']
  · obtain ⟨rfl, rfl, hnext⟩ := roundsTo_next hround' hle' hgreater
      (hblock.resolve_left (by omega)) hone
    rw [hround.unique hnext, Nat.add_mul, Nat.one_mul, Nat.two_mul, Nat.add_assoc]

end Block

end Layout

namespace Double

open Float.Model Float.Model.UnpackedFloat
open Layout (double)

/-! ### Significands with two more bits -/

/-- What the two bits behind a significand say of the part that is cut off. -/
def Residue : Bool → Bool → ℚ → Prop
  | false, false, rest => rest = 0
  | false, true, rest => 0 < rest ∧ rest < 1 / 2
  | true, false, rest => rest = 1 / 2
  | true, true, rest => 1 / 2 < rest ∧ rest < 1

/-- A significand with its two bits stands for a number. -/
def Describes (extended : ExtendedMantissa) (x : ℚ) : Prop :=
  Residue extended.roundBit extended.stickyBit (x - extended.mantissa)

theorem Describes.bounds {extended : ExtendedMantissa} {x : ℚ} (h : Describes extended x) :
    extended.mantissa ≤ x ∧ x < extended.mantissa + 1 := by
  obtain ⟨mantissa, round, sticky⟩ := extended
  cases round <;> cases sticky <;> simp only [Describes, Residue] at h <;>
    constructor <;> linarith

theorem describes_exact (mantissa : ℕ) :
    Describes (ExtendedMantissa.ofMantissaAndAccuracy mantissa .exact) mantissa :=
  sub_self _

theorem Describes.shiftRightOne {extended : ExtendedMantissa} {x : ℚ}
    (h : Describes extended x) : Describes extended.shiftRightOne (x / 2) := by
  obtain ⟨mantissa, round, sticky⟩ := extended
  have hmantissa : (mantissa : ℚ) = 2 * (mantissa / 2 : ℕ) + (mantissa % 2 : ℕ) := by
    exact_mod_cast (Nat.div_add_mod mantissa 2).symm
  have hrest : x / 2 - (mantissa / 2 : ℕ) = (x - mantissa) / 2 + (mantissa % 2 : ℕ) / 2 := by
    linarith
  change Residue round sticky (x - mantissa) at h
  change Residue (mantissa % 2 != 0) (round || sticky) (x / 2 - (mantissa / 2 : ℕ))
  rw [hrest]
  rcases Nat.mod_two_eq_zero_or_one mantissa with hbit | hbit <;>
    rw [hbit] <;> cases round <;> cases sticky <;> simp [Residue] at h ⊢
  all_goals first
    | exact h
    | (constructor <;> linarith)

theorem Describes.shiftRight {extended : ExtendedMantissa} {x : ℚ} (h : Describes extended x)
    (shift : ℕ) : Describes (extended >>> shift) (x / 2 ^ shift) := by
  induction shift with
  | zero =>
      rw [pow_zero, div_one]
      exact h
  | succ shift ih =>
      rw [pow_succ, ← div_div]
      exact ih.shiftRightOne

/-- The two bits decide which significand is nearest. -/
theorem Describes.roundsTo {extended : ExtendedMantissa} {x : ℚ} (h : Describes extended x) :
    RoundsTo x extended.roundedMantissa := by
  obtain ⟨mantissa, round, sticky⟩ := extended
  change Residue round sticky (x - mantissa) at h
  cases round with
  | false =>
      have hbelow : 0 ≤ x - mantissa ∧ x - mantissa < 1 / 2 := by
        cases sticky with
        | false => exact ⟨le_of_eq h.symm, h.trans_lt (by norm_num)⟩
        | true => exact ⟨le_of_lt h.1, h.2⟩
      have hrounded : ExtendedMantissa.roundedMantissa ⟨mantissa, false, sticky⟩ = mantissa := by
        cases sticky <;> rfl
      rw [hrounded]
      refine RoundsTo.of_abs_lt ?_
      rw [abs_sub_comm, abs_of_nonneg hbelow.1]
      exact hbelow.2
  | true =>
      cases sticky with
      | false =>
          -- a tie
          change x - mantissa = 1 / 2 at h
          change RoundsTo x (mantissa + mantissa % 2)
          rcases Nat.mod_two_eq_zero_or_one mantissa with heven | hodd
          · rw [heven, Nat.add_zero]
            refine ⟨?_, fun _ => heven⟩
            rw [abs_sub_comm, h, abs_of_nonneg (by norm_num)]
          · rw [hodd]
            refine ⟨?_, fun _ => by omega⟩
            rw [Nat.cast_add, Nat.cast_one, abs_of_nonneg (by linarith)]
            linarith
      | true =>
          change RoundsTo x (mantissa + 1)
          refine RoundsTo.of_abs_lt ?_
          rw [Nat.cast_add, Nat.cast_one, abs_of_pos (by linarith [h.2])]
          linarith [h.1]

/-! ### The rounded form -/

/-- A normal form is packed to its pattern, or to infinity beyond the last exponent. -/
theorem toNat_ofUnpacked_finite (sign : Sign) {mantissa : ℕ} {exponent : ℤ}
    (hmantissa : 0 < mantissa) (hlt : mantissa < 2 ^ 53) (hexponent : -1074 ≤ exponent)
    (hnormal : 2 ^ 52 ≤ mantissa ∨ exponent = -1074) :
    (ofUnpacked (.finite sign mantissa exponent hmantissa)).toBits.toNat =
      sign.toBitVec.toNat * 2 ^ 63 +
        min (2047 * 2 ^ 52) ((exponent + 1074).toNat * 2 ^ 52 + mantissa) := by
  by_cases hfinite : exponent ≤ 971
  · rw [Nat.min_eq_right (by omega)]
    exact toNat_pack_finite sign mantissa exponent hmantissa hlt hexponent hfinite hnormal
  · rw [Nat.min_eq_left (by omega)]
    change (UnpackedFloat.pack Format.binary64
      (.finite sign mantissa exponent hmantissa)).toNat = _
    have hbiased : (exponent + Format.binary64.exponentBias + (52 : Nat)).toNat =
        (exponent + 1075).toNat := by
      change (exponent + (1023 : Nat) + (52 : Nat)).toNat = _
      omega
    simp only [UnpackedFloat.pack, hbiased]
    have hrange : 2 ^ Format.binary64.exponentBits ≤ (exponent + 1075).toNat + 1 := by
      change 2 ^ 11 ≤ _
      omega
    rw [if_pos hrange]
    cases sign <;> rfl

/-- A rounded significand with its exponent, shifted once more where it has become too
long. -/
def settled (sign : Sign) (rounded : ℕ) (exponent : ℤ) : UnpackedFloat :=
  let shifted := shiftToTargetExponent .binary64 rounded exponent .exact
  if h : shifted.1.mantissa = 0 then .zero sign
  else .finite sign shifted.1.mantissa shifted.2 (Nat.pos_of_ne_zero h)

theorem roundWithAccuracy_eq (sign : Sign) (mantissa : ℕ) (exponent : ℤ) (accuracy : Accuracy) :
    roundWithAccuracy .binary64 sign mantissa exponent accuracy =
      settled sign (shiftToTargetExponent .binary64 mantissa exponent accuracy).1.roundedMantissa
        (shiftToTargetExponent .binary64 mantissa exponent accuracy).2 :=
  rfl

theorem toNat_settled (sign : Sign) {rounded : ℕ} {exponent : ℤ} (hle : rounded ≤ 2 ^ 53)
    (hexponent : -1074 ≤ exponent) (hnormal : 2 ^ 52 ≤ rounded ∨ exponent = -1074) :
    (ofUnpacked (settled sign rounded exponent)).toBits.toNat =
      sign.toBitVec.toNat * 2 ^ 63 +
        min (2047 * 2 ^ 52) ((exponent + 1074).toNat * 2 ^ 52 + rounded) := by
  obtain ⟨shifted, hshifted⟩ : ∃ shifted,
      shifted = shiftToTargetExponent .binary64 rounded exponent .exact := ⟨_, rfl⟩
  have hsettled : settled sign rounded exponent = if h : shifted.1.mantissa = 0 then .zero sign
      else .finite sign shifted.1.mantissa shifted.2 (Nat.pos_of_ne_zero h) := by
    rw [hshifted]
    rfl
  rw [shiftToTargetExponent_eq] at hshifted
  have hmantissa := congrArg (fun pair => pair.1.mantissa) hshifted
  have hpower := congrArg Prod.snd hshifted
  simp only [mantissa_shiftRight] at hmantissa hpower
  change _ = rounded / _ at hmantissa
  rw [hsettled]
  rcases Nat.eq_zero_or_pos rounded with hzero | hpos
  · rw [dif_pos (by rw [hmantissa, hzero, Nat.zero_div])]
    have hlast : exponent = -1074 := hnormal.resolve_left (by omega)
    rw [hzero, hlast]
    cases sign <;> rfl
  rcases Nat.lt_or_ge rounded (2 ^ 53) with hlt | hge
  · have hlog' := (Nat.log2_lt (Nat.ne_of_gt hpos)).mpr hlt
    have hshift : (max ((rounded.log2 : ℤ) + exponent - 52) (-1074) - exponent).toNat = 0 := by
      omega
    rw [hshift, pow_zero, Nat.div_one] at hmantissa
    have hpower' : shifted.2 = exponent := by omega
    rw [dif_neg (by omega), toNat_ofUnpacked_finite sign _ (by omega) (by omega) (by omega),
      hmantissa, hpower']
  · obtain rfl : rounded = 2 ^ 53 := by omega
    have hlog' : (2 ^ 53 : ℕ).log2 = 53 := Nat.log2_two_pow
    rw [hlog'] at hmantissa hpower
    have hshift : (max (((53 : ℕ) : ℤ) + exponent - 52) (-1074) - exponent).toNat = 1 := by
      omega
    rw [hshift, pow_one] at hmantissa
    rw [dif_neg (by omega), toNat_ofUnpacked_finite sign _ (by omega) (by omega) (by omega)]
    omega

/-- Rounding a significand that stands for a number finds the double nearest to it, if the
exponent leaves no bits out. -/
theorem toNat_roundWithAccuracy (sign : Sign) {mantissa : ℕ} {exponent : ℤ} {accuracy : Accuracy}
    {x : ℚ} {n d : ℕ} (hd : 0 < d)
    (hdescribes : Describes (ExtendedMantissa.ofMantissaAndAccuracy mantissa accuracy) x)
    (hexponent : exponent ≤ max (mantissa.log2 + exponent - 52) (-1074))
    (hvalue : (n : ℚ) / d = x * 2 ^ exponent) :
    (ofUnpacked (roundWithAccuracy .binary64 sign mantissa exponent accuracy)).toBits.toNat =
      sign.toBitVec.toNat * 2 ^ 63 + double.nearest n d := by
  obtain ⟨target, htarget⟩ : ∃ target : ℤ,
      target = max ((mantissa.log2 : ℤ) + exponent - 52) (-1074) := ⟨_, rfl⟩
  obtain ⟨shift, hshift⟩ : ∃ shift : ℕ, (shift : ℤ) = target - exponent :=
    ⟨_, Int.toNat_of_nonneg (by omega)⟩
  obtain ⟨block, hblock⟩ : ∃ block : ℕ, (block : ℤ) = target + 1074 :=
    ⟨_, Int.toNat_of_nonneg (by omega)⟩
  obtain ⟨extended, hextended⟩ : ∃ extended,
      extended = ExtendedMantissa.ofMantissaAndAccuracy mantissa accuracy >>> shift := ⟨_, rfl⟩
  have hshifted : shiftToTargetExponent .binary64 mantissa exponent accuracy =
      (extended, target) := by
    rw [shiftToTargetExponent_eq, hextended, ← htarget, ← hshift, Int.toNat_natCast,
      max_eq_right (by omega)]
  have hcut := (shiftToTargetExponent_bounds mantissa exponent accuracy).2
  rw [hshifted] at hcut
  change extended.mantissa < 2 ^ 53 at hcut
  have hrounded := roundedMantissa_le extended
  have hdescribes' : Describes extended (x / 2 ^ shift) := hextended ▸ hdescribes.shiftRight shift
  have hunits : double.inUnits n d / 2 ^ block = x / 2 ^ shift := by
    have hunit : (double.unitDenominator : ℚ) = 2 ^ (1074 : ℤ) := by
      rw [Layout.unitDenominator, Nat.cast_pow, Nat.cast_ofNat]
      rfl
    rw [Layout.inUnits, hvalue, hunit, ← zpow_natCast, ← zpow_natCast, hblock, hshift,
      div_eq_div_iff (by positivity) (by positivity), mul_assoc, mul_assoc,
      ← zpow_add₀ two_ne_zero, ← zpow_add₀ two_ne_zero]
    congr 2
    omega
  have hhalf : double.half = 2 ^ 52 := rfl
  have hlow : block = 0 ∨ double.half ≤ extended.mantissa := by
    by_cases hleast : target = -1074
    · exact Or.inl (by omega)
    have hne : mantissa ≠ 0 := by
      rintro rfl
      rw [Nat.log2_zero] at htarget
      omega
    refine Or.inr ?_
    rw [hextended, mantissa_shiftRight, mantissa_ofMantissaAndAccuracy, hhalf,
      Nat.le_div_iff_mul_le (Nat.two_pow_pos _), ← Nat.pow_add]
    have hsum : 52 + shift = mantissa.log2 := by omega
    rw [hsum]
    exact Nat.log2_self_le hne
  have hlow' : block = 0 ∨ double.half * 2 ^ block ≤ double.inUnits n d := by
    refine hlow.imp_right (fun h => ?_)
    rw [← le_div_iff₀ (by positivity), hunits]
    exact le_trans (Nat.cast_le.mpr h) hdescribes'.bounds.1
  have hround := hdescribes'.roundsTo
  have hge : block = 0 ∨ 2 ^ 52 ≤ extended.roundedMantissa :=
    hlow.imp_right (fun h => hround.le_of_natCast_le
      (le_trans (Nat.cast_le.mpr h) hdescribes'.bounds.1))
  rw [← hunits] at hround
  rw [roundWithAccuracy_eq, hshifted, Layout.nearest_eq (by decide) hd hround (by omega) hlow',
    toNat_settled sign (by omega) (by omega) (hge.symm.imp_right (by omega)), hhalf]
  have htop : double.top = 2047 * 2 ^ 52 := rfl
  have hblock' : (target + 1074).toNat = block := by omega
  rw [htop, hblock']

end Double

end GraphCalc
