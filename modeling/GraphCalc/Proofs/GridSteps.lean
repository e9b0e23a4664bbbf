/-
The step of a grid.  An extent is at most a little more than ten of its steps, down to the
least doubles, if logarithm and powers of ten are accurate.
-/
import GraphCalc.Grid
import GraphCalc.Proofs.SignificantDigits
import GraphCalc.Proofs.WholeDoubles
namespace GraphCalc.Grid

open Double
open Layout (double)

/-- The decade of an extent, and the power of ten there, are what they should be: a
logarithm just below a power of ten is not rounded to less than the decade, and the power
is right to a thousandth, or to half a least unit. -/
structure Accurate (extent : Float) : Prop where
  le_decade : Decimal.leadingExponent (units extent) double.unitDenominator ≤ decade extent
  isFinite_power : (powerOfTen (decade extent)).isFinite = true
  near : |value (powerOfTen (decade extent)) - 10 ^ decade extent| ≤
    10 ^ decade extent / 1000 + 1 / 2 / double.unitDenominator

/-! ### Powers of ten in least units -/

theorem least_decade : (2.02 : ℚ) < 10 ^ (-323 : ℤ) * double.unitDenominator ∧
    (10 : ℚ) ^ (-323 : ℤ) * double.unitDenominator < 2.03 := by
  have hnat : 202 * 10 ^ 321 < double.unitDenominator ∧
      double.unitDenominator < 203 * 10 ^ 321 := by decide +kernel
  have hlower : (202 * 10 ^ 321 : ℚ) < double.unitDenominator := by exact_mod_cast hnat.1
  have hupper : (double.unitDenominator : ℚ) < 203 * 10 ^ 321 := by exact_mod_cast hnat.2
  obtain ⟨d, hd⟩ : ∃ d : ℚ, d = double.unitDenominator := ⟨_, rfl⟩
  obtain ⟨t, ht⟩ : ∃ t : ℚ, t = 10 ^ 321 := ⟨_, rfl⟩
  have hpow : (10 : ℚ) ^ (-323 : ℤ) = (t * 100)⁻¹ := by
    have hsplit : (10 : ℚ) ^ 323 = 10 ^ 321 * 10 ^ 2 := pow_add 10 321 2
    rw [ht, zpow_neg, zpow_ofNat, hsplit]
    norm_num
  have htpos : 0 < t := by
    rw [ht]
    positivity
  rw [← hd, ← ht] at hlower hupper
  rw [← hd, hpow, inv_mul_eq_div, lt_div_iff₀ (by positivity), div_lt_iff₀ (by positivity)]
  constructor <;> linarith

theorem eq_of_near {p n : ℕ} (h : (n : ℚ) < p + 1) (h' : (p : ℚ) < n + 1) : p = n := by
  have hlower : n < p + 1 := by exact_mod_cast h
  have hupper : p < n + 1 := by exact_mod_cast h'
  omega

/-- Below the powers of ten of two hundred units there are three: of none, of two and of
twenty units. -/
theorem power_in_units {k : ℤ} {p e : ℕ} {power : ℚ}
    (hpower : power = 10 ^ k * double.unitDenominator)
    (hp : |p - power| ≤ power / 1000 + 1 / 2) (hpos : 0 < e) (he : e < 10 * power) :
    (p = 0 ∨ p = 2 ∨ p = 20 ∨ 200 ≤ p) ∧ (p ≤ 2 → (e : ℚ) ≤ 21) ∧
      (p ≠ 0 → (e : ℚ) ≤ 10.3 * p) := by
  obtain ⟨hlower, hupper⟩ := least_decade
  obtain ⟨hfrom, hto⟩ := abs_le.mp hp
  obtain ⟨least, hleast⟩ : ∃ least : ℚ, least = 10 ^ (-323 : ℤ) * double.unitDenominator :=
    ⟨_, rfl⟩
  have hscale : power = 10 ^ (k + 323) * least := by
    rw [hpower, hleast, ← mul_assoc, ← zpow_add₀ (by norm_num), add_neg_cancel_right]
  rw [← hleast] at hlower hupper
  have hone : (1 : ℚ) ≤ e := by exact_mod_cast hpos
  have hcases : k + 323 ≤ -2 ∨ k + 323 = -1 ∨ k + 323 = 0 ∨ k + 323 = 1 ∨ 2 ≤ k + 323 := by
    omega
  rcases hcases with hsmall | hk | hk | hk | hlarge
  · have hpow : (10 : ℚ) ^ (k + 323) ≤ 10 ^ (-2 : ℤ) := zpow_le_zpow_right₀ (by norm_num) hsmall
    norm_num at hpow
    nlinarith
  · rw [hk] at hscale
    norm_num at hscale
    obtain rfl : p = 0 := eq_of_near (by push_cast; linarith) (by push_cast; linarith)
    exact ⟨Or.inl rfl, fun _ => by linarith, fun h => absurd rfl h⟩
  · rw [hk, zpow_zero, one_mul] at hscale
    obtain rfl : p = 2 := eq_of_near (by push_cast; linarith) (by push_cast; linarith)
    exact ⟨Or.inr (Or.inl rfl), fun _ => by linarith, fun _ => by push_cast; linarith⟩
  · rw [hk, zpow_one] at hscale
    obtain rfl : p = 20 := eq_of_near (by push_cast; linarith) (by push_cast; linarith)
    exact ⟨Or.inr (Or.inr (Or.inl rfl)), fun h => by omega, fun _ => by push_cast; linarith⟩
  · have hpow : (10 : ℚ) ^ (2 : ℤ) ≤ 10 ^ (k + 323) := zpow_le_zpow_right₀ (by norm_num) hlarge
    norm_num at hpow
    have hpowerge : 202 ≤ power := by nlinarith
    have hmany : (200 : ℚ) ≤ p := by linarith
    have hmany' : 200 ≤ p := by exact_mod_cast hmany
    exact ⟨Or.inr (Or.inr (Or.inr hmany')), fun h => by omega, fun _ => by linarith⟩

/-! ### Shares of a power -/

section Shares
variable {power divisor : Float} {p c : ℕ} (hpower : power.isFinite = true)
  (hdivisor : divisor.isFinite = true) (hvalue : value divisor = c) (hc : 2 ≤ c)
include hpower hdivisor hvalue hc

theorem rounds_share : Rounds (value power / c) (power / divisor) := by
  have hne : value divisor ≠ 0 := by
    rw [hvalue]
    exact Nat.cast_ne_zero.mpr (by omega)
  have hquotient := rounds_div hpower hdivisor hne
  rwa [hvalue] at hquotient

theorem isFinite_share : (power / divisor).isFinite = true := by
  have hshare := rounds_share hpower hdivisor hvalue hc
  have hone : (1 : ℚ) ≤ c := by exact_mod_cast (by omega : 1 ≤ c)
  have hpattern := hshare.pattern_mono (rounds_value (pattern_le_of_isFinite hpower)) (by
    rw [abs_div, Nat.abs_cast]
    exact div_le_self (abs_nonneg _) hone)
  rw [isFinite_eq, decide_eq_true_eq] at hpower ⊢
  exact Nat.lt_of_le_of_lt hpattern hpower

/-- A share of a power of enough units is hardly less than it should be. -/
theorem le_share (hunits : value power * double.unitDenominator = p) (hc' : c ≤ 5)
    (hexact : c ∣ p ∨ 200 ≤ p) :
    0.98 * (p : ℚ) ≤ c * (value (power / divisor) * double.unitDenominator) := by
  have hshare := rounds_share hpower hdivisor hvalue hc
  have hfinite := isFinite_share hpower hdivisor hvalue hc
  have hcpos : (0 : ℚ) < c := by exact_mod_cast (by omega : 0 < c)
  have hunit := double.unitDenominator_pos
  obtain ⟨d, hd⟩ : ∃ d : ℚ, d = double.unitDenominator := ⟨_, rfl⟩
  obtain ⟨x, hx⟩ : ∃ x, x = value power / c := ⟨_, rfl⟩
  have hscaled : x * d * c = p := by
    rw [← hunits, ← hd, hx]
    field_simp
  rw [← hd] at hunit
  have habs : |x| = x := by
    refine abs_of_nonneg (le_of_mul_le_mul_right ?_ (mul_pos hunit hcpos))
    rw [zero_mul, ← mul_assoc, hscaled]
    exact Nat.cast_nonneg p
  rw [← hx] at hshare
  rw [← hd]
  rcases hexact with ⟨m, rfl⟩ | hmany
  · have hwhole : |x| * double.unitDenominator = m := by
      rw [habs, ← hd]
      refine mul_right_cancel₀ (ne_of_gt hcpos) ?_
      rw [hscaled, Nat.cast_mul, mul_comm]
    have herror := (abs_le.mp (hshare.abs_sub_le_of_units hfinite hwhole)).1
    rw [habs] at herror
    have hmul : (x - x / 2 ^ 53) * (d * c) ≤ value (power / divisor) * (d * c) :=
      mul_le_mul_of_nonneg_right (by linarith) (by positivity)
    have hmul' : (x - x / 2 ^ 53) * (d * c) = (c * m : ℕ) - (c * m : ℕ) / 2 ^ 53 := by
      rw [← hscaled]
      ring
    have hnonneg : (0 : ℚ) ≤ (c * m : ℕ) := Nat.cast_nonneg _
    linarith
  · have herror := (abs_le.mp (hshare.abs_sub_le hfinite)).1
    rw [habs, ← hd] at herror
    have hmul : (x - x / 2 ^ 53 - 1 / 2 / d) * (d * c) ≤ value (power / divisor) * (d * c) :=
      mul_le_mul_of_nonneg_right (by linarith) (by positivity)
    have hmul' : (x - x / 2 ^ 53 - 1 / 2 / d) * (d * c) = p - p / 2 ^ 53 - c / 2 := by
      rw [← hscaled]
      field_simp
    have hcle : (c : ℚ) ≤ 5 := by exact_mod_cast hc'
    have hple : (200 : ℚ) ≤ p := by exact_mod_cast hmany
    linarith

/-- Less than half a unit is rounded to nothing. -/
theorem share_eq_zero (hunits : value power * double.unitDenominator = p) (hfew : 5 * p ≤ 2 * c) :
    value (power / divisor) = 0 := by
  have hshare := rounds_share hpower hdivisor hvalue hc
  have hfinite := isFinite_share hpower hdivisor hvalue hc
  have hcpos : (0 : ℚ) < c := by exact_mod_cast (by omega : 0 < c)
  have hunit := double.unitDenominator_pos
  have herror := mul_le_mul_of_nonneg_right (hshare.abs_sub_le hfinite) (le_of_lt hunit)
  have hcount := units_eq_abs_value (power / divisor)
  have hsum : |value (power / divisor)| ≤
      |value (power / divisor) - value power / c| + |value power / c| := by
    have htriangle := abs_add_le (value (power / divisor) - value power / c) (value power / c)
    rwa [sub_add_cancel] at htriangle
  have hshareunits : |value power / c| * double.unitDenominator = p / c := by
    rw [← abs_of_pos hunit, ← abs_mul, div_mul_eq_mul_div, hunits,
      abs_of_nonneg (div_nonneg (Nat.cast_nonneg p) (le_of_lt hcpos))]
  have hfew' : (p : ℚ) / c ≤ 2 / 5 := by
    rw [div_le_div_iff₀ hcpos (by norm_num)]
    exact_mod_cast (by omega : p * 5 ≤ 2 * c)
  have hless : (units (power / divisor) : ℚ) < 1 := by
    have hscaled := mul_le_mul_of_nonneg_right hsum (le_of_lt hunit)
    have hhalf : (|value power / c| / 2 ^ 53 + 1 / 2 / double.unitDenominator) *
        double.unitDenominator = p / c / 2 ^ 53 + 1 / 2 := by
      rw [← hshareunits]
      field_simp
    rw [hhalf] at herror
    rw [add_mul, ← hcount, hshareunits] at hscaled
    linarith
  have hzero : units (power / divisor) = 0 := by
    have hnat : units (power / divisor) < 1 := by exact_mod_cast hless
    omega
  rw [hzero, Nat.cast_zero, eq_comm, mul_eq_zero] at hcount
  exact abs_eq_zero.mp (hcount.resolve_right (ne_of_gt hunit))

/-- An extent whose quotient is rounded to the divisor is not much more than so many powers. -/
theorem le_of_quotient_le {extent : Float} (hextent : extent.isFinite = true)
    (hpos : 0 < value power) (hle : extent / power ≤ divisor) (hextentpos : 0 < value extent) :
    value extent ≤ 1.001 * c * value power := by
  have hquotient := rounds_div hextent hpower (ne_of_gt hpos)
  obtain ⟨x, hx⟩ : ∃ x, x = value extent / value power := ⟨_, rfl⟩
  have hxpos : 0 < x := hx ▸ div_pos hextentpos hpos
  rw [← hx] at hquotient
  have hnonneg : 0 ≤ value (extent / power) := by
    rw [hquotient.value_of_nonneg (le_of_lt hxpos)]
    exact magnitude_nonneg _
  have hbound : value (extent / power) ≤ c := by
    rw [← hvalue]
    exact (le_iff_value hquotient.pattern_le (pattern_le_of_isFinite hdivisor)).mp hle
  have hfinite : (extent / power).isFinite = true := by
    rw [isFinite_iff_abs_value] at hdivisor ⊢
    rw [hvalue, Nat.abs_cast] at hdivisor
    rw [abs_of_nonneg hnonneg]
    exact lt_of_le_of_lt hbound hdivisor
  have herror := (abs_le.mp (hquotient.abs_sub_le hfinite)).1
  rw [abs_of_pos hxpos] at herror
  have hhalf : 1 / 2 / (double.unitDenominator : ℚ) ≤ 1 / 10000 := by
    have hlarge : ((10000 : ℕ) : ℚ) ≤ (2 * double.unitDenominator : ℕ) :=
      Nat.cast_le.mpr (by decide +kernel)
    rw [Nat.cast_mul, Nat.cast_ofNat, Nat.cast_ofNat] at hlarge
    rw [div_div]
    exact one_div_le_one_div_of_le (by norm_num) hlarge
  have htwo : (2 : ℚ) ≤ c := by exact_mod_cast hc
  have hxle : x ≤ 1.001 * c := by linarith
  rw [hx, div_le_iff₀ hpos] at hxle
  exact hxle

end Shares

/-! ### The step -/

theorem stepOf_cases (extent power : Float) :
    extent / power ≤ 2 ∧ stepOf extent power = power / 5 ∨
      extent / power ≤ 5 ∧ stepOf extent power = power / 2 ∨ stepOf extent power = power := by
  rw [stepOf]
  split
  · next h => exact Or.inl ⟨h, rfl⟩
  split
  · next h => exact Or.inr (Or.inl ⟨h, rfl⟩)
  · exact Or.inr (Or.inr rfl)

/-- The step that is used: one where none is found. -/
def usedStep (extent : Float) : Float :=
  (step? extent).getD 1.0

theorem positive_iff {v : Float} (hv : v.isFinite = true) : (0.0 : Float) < v ↔ 0 < value v := by
  rw [lt_iff_value (by decide +kernel) (pattern_le_of_isFinite hv), value_zero]

/-- Whatever the extent is, the step that is used is finite and positive. -/
theorem usedStep_pos (extent : Float) :
    (usedStep extent).isFinite = true ∧ 0 < value (usedStep extent) := by
  have hone : (1.0 : Float).isFinite = true ∧ 0 < value 1.0 := ⟨by decide +kernel, by
    rw [value_one]
    exact one_pos⟩
  rw [usedStep, step?]
  split
  · exact hone
  · dsimp only
    split
    · next h =>
        rw [Bool.and_eq_true, decide_eq_true_eq] at h
        exact ⟨h.1, (positive_iff h.1).mp h.2⟩
    · exact hone

theorem usedStep_eq {extent : Float} (hfinite : extent.isFinite = true) (hpos : 0 < value extent) :
    usedStep extent =
      if (stepOf extent (powerOfTen (decade extent))).isFinite &&
        0.0 < stepOf extent (powerOfTen (decade extent))
      then stepOf extent (powerOfTen (decade extent)) else 1.0 := by
  have hnle : ¬ extent ≤ 0.0 := by
    rw [le_iff_value (pattern_le_of_isFinite hfinite) (by decide +kernel), value_zero, not_le]
    exact hpos
  rw [usedStep, step?, hfinite, decide_eq_false hnle]
  simp only [Bool.not_true, Bool.or_self, Bool.false_eq_true, if_false]
  split <;> rfl

section Step
variable {extent : Float} (hfinite : extent.isFinite = true) (hpos : 0 < value extent)
include hpos

/-- What the power of an accurate extent is, counted in least units. -/
theorem Accurate.power_units (hacc : Accurate extent) : ∃ p : ℕ,
    value (powerOfTen (decade extent)) * double.unitDenominator = p ∧
      (p = 0 ∨ p = 2 ∨ p = 20 ∨ 200 ≤ p) ∧ (p ≤ 2 → (units extent : ℚ) ≤ 21) ∧
        (p ≠ 0 → (units extent : ℚ) ≤ 10.3 * p) := by
  have hunit := double.unitDenominator_pos
  obtain ⟨power, hpower⟩ : ∃ power : ℚ, power = 10 ^ decade extent * double.unitDenominator :=
    ⟨_, rfl⟩
  have hpowerpos : 0 < power := by
    rw [hpower]
    positivity
  have hnear : |value (powerOfTen (decade extent)) * double.unitDenominator - power| ≤
      power / 1000 + 1 / 2 := by
    have hscaled := mul_le_mul_of_nonneg_right hacc.near (le_of_lt hunit)
    rw [← abs_of_pos hunit, ← abs_mul, abs_of_pos hunit, sub_mul, ← hpower] at hscaled
    refine hscaled.trans (le_of_eq ?_)
    rw [hpower]
    field_simp
  have hextent := units_eq_abs_value extent
  rw [abs_of_pos hpos] at hextent
  have hunits : 0 < units extent := by
    have hcast : (0 : ℚ) < units extent := by
      rw [hextent]
      exact mul_pos hpos hunit
    exact_mod_cast hcast
  have hless : (units extent : ℚ) < 10 * power := by
    have hspec := (Decimal.leadingExponent_spec hunits (Nat.cast_pos.mp hunit)).2
    have hpow : (10 : ℚ) ^ (Decimal.leadingExponent (units extent) double.unitDenominator + 1) ≤
        10 ^ (decade extent + 1) :=
      zpow_le_zpow_right₀ (by norm_num) (by have := hacc.le_decade; omega)
    have hscaled := hspec.trans_le hpow
    rw [div_lt_iff₀ hunit, zpow_add_one₀ (by norm_num), mul_right_comm, ← hpower, mul_comm]
      at hscaled
    exact hscaled
  have hvalue : value (powerOfTen (decade extent)) * double.unitDenominator =
      units (powerOfTen (decade extent)) := by
    have hcount := units_eq_abs_value (powerOfTen (decade extent))
    rcases le_or_gt 0 (value (powerOfTen (decade extent))) with hnonneg | hneg
    · rw [hcount, abs_of_nonneg hnonneg]
    · rw [abs_of_neg hneg, neg_mul] at hcount
      have hsmall : (units (powerOfTen (decade extent)) : ℚ) < 1 := by
        linarith [(abs_le.mp hnear).1]
      have hzero : units (powerOfTen (decade extent)) = 0 := by
        have hnat : units (powerOfTen (decade extent)) < 1 := by exact_mod_cast hsmall
        omega
      rw [hzero, Nat.cast_zero] at hcount ⊢
      linarith
  rw [hvalue] at hnear
  exact ⟨_, hvalue, power_in_units hpower hnear hunits hless⟩

include hfinite in
/-- A share that is not rounded to nothing is large enough. -/
theorem share_bounds {power limit divisor : Float} {p c c' : ℕ} (hpower : power.isFinite = true)
    (hunits : value power * double.unitDenominator = p) (hp : 0 < p)
    (hlimit : limit.isFinite = true) (hlimitvalue : value limit = c')
    (hdivisor : divisor.isFinite = true) (hvalue : value divisor = c) (hc' : 2 ≤ c') (hc : 2 ≤ c)
    (hc5 : c ≤ 5) (hten : c * c' = 10) (hexact : c ∣ p ∨ 200 ≤ p) (hle : extent / power ≤ limit) :
    0 < value (power / divisor) ∧ value extent ≤ 10.4 * value (power / divisor) := by
  have hunit := double.unitDenominator_pos
  have hppos : (0 : ℚ) < p := by exact_mod_cast hp
  have hcpos : (0 : ℚ) < c := by exact_mod_cast (by omega : 0 < c)
  have hpowerpos : 0 < value power := by
    rw [← hunits] at hppos
    exact pos_of_mul_pos_left hppos (le_of_lt hunit)
  have hshare := le_share hpower hdivisor hvalue hc hunits hc5 hexact
  have hmost := le_of_quotient_le hpower hlimit hlimitvalue hc' hfinite hpowerpos hle hpos
  rw [← hunits, ← mul_assoc, ← mul_assoc] at hshare
  have hsharele := le_of_mul_le_mul_right hshare hunit
  have hcten : (c : ℚ) * c' = 10 := by exact_mod_cast hten
  refine ⟨by nlinarith, ?_⟩
  have hscaled := mul_le_mul_of_nonneg_left hsharele (Nat.cast_nonneg (α := ℚ) c')
  have hregroup : (c' : ℚ) * (c * value (power / divisor)) = 10 * value (power / divisor) := by
    rw [← hcten]
    ring
  rw [hregroup] at hscaled
  nlinarith

include hfinite in
/-- The step that is chosen is finite, is not nothing where the power has twenty units or
more, and unless it is nothing the extent is not much more than ten of it. -/
theorem stepOf_bounds {power : Float} {p : ℕ} (hpower : power.isFinite = true)
    (hunits : value power * double.unitDenominator = p)
    (hp : p = 0 ∨ p = 2 ∨ p = 20 ∨ 200 ≤ p) (hmost : p ≠ 0 → (units extent : ℚ) ≤ 10.3 * p) :
    (stepOf extent power).isFinite = true ∧ (20 ≤ p → 0 < value (stepOf extent power)) ∧
      (0 < value (stepOf extent power) → value extent ≤ 10.4 * value (stepOf extent power)) := by
  have htwo : (2 : Float).isFinite = true := by decide +kernel
  have hfive : (5 : Float).isFinite = true := by decide +kernel
  have hvalue : value 2 = (2 : ℕ) := value_of_units (by decide +kernel) (by decide +kernel)
  have hvalue' : value 5 = (5 : ℕ) := value_of_units (by decide +kernel) (by decide +kernel)
  rcases stepOf_cases extent power with ⟨hle, hstep⟩ | ⟨hle, hstep⟩ | hstep <;> rw [hstep]
  · refine ⟨isFinite_share hpower hfive hvalue' (by omega), ?_⟩
    by_cases hfew : p ≤ 2
    · rw [share_eq_zero hpower hfive hvalue' (by omega) hunits (by omega)]
      exact ⟨fun h => by omega, fun h => absurd h (lt_irrefl 0)⟩
    · obtain ⟨hsharepos, hbound⟩ := share_bounds hfinite hpos hpower hunits (by omega) htwo hvalue
        hfive hvalue' (by omega) (by omega) (by omega) rfl (by omega) hle
      exact ⟨fun _ => hsharepos, fun _ => hbound⟩
  · refine ⟨isFinite_share hpower htwo hvalue (by omega), ?_⟩
    by_cases hzero : p = 0
    · rw [share_eq_zero hpower htwo hvalue (by omega) hunits (by omega)]
      exact ⟨fun h => by omega, fun h => absurd h (lt_irrefl 0)⟩
    · obtain ⟨hsharepos, hbound⟩ := share_bounds hfinite hpos hpower hunits (by omega) hfive hvalue'
        htwo hvalue (by omega) (by omega) (by omega) rfl (by omega) hle
      exact ⟨fun _ => hsharepos, fun _ => hbound⟩
  · have hunit := double.unitDenominator_pos
    have hcount := units_eq_abs_value extent
    rw [abs_of_pos hpos] at hcount
    refine ⟨hpower, fun h => ?_, fun h => ?_⟩
    · refine pos_of_mul_pos_left ?_ (le_of_lt hunit)
      rw [hunits]
      exact_mod_cast (by omega : 0 < p)
    · have hne : p ≠ 0 := by
        rintro rfl
        rw [Nat.cast_zero, mul_eq_zero] at hunits
        exact ne_of_gt h (hunits.resolve_right (ne_of_gt hunit))
      refine le_of_mul_le_mul_right ?_ hunit
      rw [mul_assoc, ← hcount, hunits]
      linarith [hmost hne]

include hfinite in
/-- An accurate extent is at most a little more than ten of its steps. -/
theorem le_usedStep (hacc : Accurate extent) : value extent ≤ 10.4 * value (usedStep extent) := by
  obtain ⟨p, hunits, hp, hleast, hmost⟩ := hacc.power_units hpos
  have hpower := hacc.isFinite_power
  obtain ⟨hstep, hpositive, hbound⟩ := stepOf_bounds hfinite hpos hpower hunits hp hmost
  rw [usedStep_eq hfinite hpos]
  obtain ⟨step, heq⟩ : ∃ step, step = stepOf extent (powerOfTen (decade extent)) := ⟨_, rfl⟩
  rw [← heq] at hstep hpositive hbound
  have hiff := positive_iff hstep
  rw [← heq, hstep, Bool.true_and]
  split
  · next h => exact hbound (hiff.mp (of_decide_eq_true h))
  · next h =>
      -- no step: the extent has a few least units
      have hfew := hleast (by
        have hless := mt hpositive (mt (fun hlt => decide_eq_true (hiff.mpr hlt)) h)
        omega)
      have hcount := units_eq_abs_value extent
      have hunit : (10 : ℚ) ≤ double.unitDenominator := by
        have hlarge : ((10 : ℕ) : ℚ) ≤ double.unitDenominator :=
          Nat.cast_le.mpr (by decide +kernel)
        exact_mod_cast hlarge
      rw [abs_of_pos hpos] at hcount
      rw [value_one]
      nlinarith

end Step

end GraphCalc.Grid
