/-
Whole numbers.  The natural numbers below `2 ^ 53` are magnitudes of doubles, and
the shortest decimal of such a number below `10 ^ 12` has no fractional part: it is
written with all its digits.
-/
import GraphCalc.Proofs.DoubleValues
import GraphCalc.Proofs.NumberReading
namespace GraphCalc.Display

open Layout (double)

/-- The natural numbers of up to 53 bits are magnitudes. -/
theorem exists_magnitude_eq {n : ℕ} (hlt : n < 2 ^ 53) :
    ∃ code : ℕ, double.magnitude code = n := by
  obtain ⟨code, -, hmagnitude⟩ := Double.exists_magnitude 0 hlt (by decide) (by decide)
  exact ⟨code, by rw [hmagnitude, zpow_zero, mul_one]⟩

/-- A decimal that is a natural number below the limit is read exactly. -/
theorem value_eq_magnitude {d : Decimal} {n : ℕ} (hvalue : d.value = n)
    (hlt : d.pattern double < upperLimit) :
    double.magnitude (d.pattern double) = n := by
  have hbound : n < 10 ^ 12 := by
    by_contra hle
    have hcast : ((10 ^ 12 : ℕ) : ℚ) ≤ n := Nat.cast_le.mpr (Nat.le_of_not_lt hle)
    rw [Nat.cast_pow, Nat.cast_ofNat, ← hvalue, ← zpow_natCast] at hcast
    have hge := Decimal.le_pattern (by decide)
      (by rw [magnitude_upperLimit]; exact hcast : double.magnitude upperLimit ≤ d.value)
    omega
  obtain ⟨code, hcode⟩ := exists_magnitude_eq (Nat.lt_trans hbound (by decide))
  have hnear := Decimal.abs_pattern_sub_le (Nat.lt_trans hlt (by decide)) code
  rw [hcode, hvalue, sub_self, abs_zero] at hnear
  exact sub_eq_zero.mp (abs_eq_zero.mp (le_antisymm hnear (abs_nonneg _)))

section Whole
variable {code : ℕ}

theorem magnitude_of_whole (h : Whole code) :
    double.magnitude code = (double.units code / double.unitDenominator : ℕ) := by
  have hsplit := Nat.div_add_mod (double.units code) double.unitDenominator
  rw [h, Nat.add_zero] at hsplit
  rw [Layout.magnitude, div_eq_iff (ne_of_gt double.unitDenominator_pos), mul_comm,
    ← Nat.cast_mul, hsplit]

/-- The grid of the whole numbers has the number itself. -/
theorem onGrid?_zero (hwhole : Whole code) (htop : code ≤ double.top) :
    (double.onGrid? code 0).isSome = true := by
  have hlower : (⟨double.units code / double.unitDenominator, 0⟩ : Decimal).pattern double =
      code := by
    refine Decimal.pattern_eq htop ?_
    rw [magnitude_of_whole hwhole, Decimal.value, zpow_zero, mul_one]
  have hrest : 2 * (double.units code % double.unitDenominator) < double.unitDenominator := by
    rw [hwhole]
    exact double.unitDenominator_natPos
  simp [Layout.onGrid?, hrest, hlower]

/-- A grid point keeps the grid. -/
theorem exponent_of_onGrid? {exponent : ℤ} {d : Decimal}
    (h : double.onGrid? code exponent = some d) : d.exponent = exponent := by
  rw [Layout.onGrid?] at h
  have hmem := List.mem_of_find?_eq_some h
  split at hmem
  · rcases List.mem_pair.mp hmem with rfl | rfl <;> rfl
  · rcases List.mem_pair.mp hmem with rfl | rfl <;> rfl

theorem mul_unitDenominator_lt (layout : Layout) {n k : ℕ} (h : n < 2 ^ k) :
    n * layout.unitDenominator < 2 ^ (k + layout.unit) := by
  rw [Nat.pow_add]
  exact Nat.mul_lt_mul_of_pos_right h (Nat.two_pow_pos _)

/-- The scan begins above the grid of the whole numbers and comes down to it. -/
theorem coarsest_bounds {n : ℕ} (hunits : double.units code = n * double.unitDenominator)
    (hpos : 0 < n) (hlt : n < 2 ^ 40) :
    0 ≤ double.coarsest code ∧ double.coarsest code < 20 := by
  have hne : double.units code ≠ 0 := by
    rw [hunits]
    exact Nat.ne_of_gt (Nat.mul_pos hpos double.unitDenominator_natPos)
  have hge : double.unit ≤ (double.units code).log2 := by
    rw [Nat.le_log2 hne, hunits]
    exact Nat.le_mul_of_pos_left _ hpos
  have hle : (double.units code).log2 < 40 + double.unit := by
    rw [Nat.log2_lt hne, hunits]
    exact mul_unitDenominator_lt double hlt
  have hunit : double.unit = 1074 := rfl
  rw [hunit] at hge hle
  rw [Layout.coarsest, hunit]
  omega

theorem shortest_of_whole (hwhole : Whole code) (hpos : 0 < code) (hlt : code < upperLimit) :
    0 ≤ (double.shortest code).exponent ∧ (double.shortest code).pattern double = code := by
  have htop : code ≤ double.top := Nat.le_of_lt (Nat.lt_trans hlt (by decide))
  refine ⟨?_, Layout.pattern_shortest htop⟩
  obtain ⟨n, hn⟩ : ∃ n, n = double.units code / double.unitDenominator := ⟨_, rfl⟩
  have hmagnitude := magnitude_of_whole hwhole
  have hunits : double.units code = n * double.unitDenominator := by
    rw [hn, Nat.div_mul_cancel (Nat.dvd_of_mod_eq_zero hwhole)]
  have hnpos : 0 < n := by
    refine Nat.pos_of_ne_zero (fun hzero => Nat.ne_of_gt (double.units_pos hpos) ?_)
    rw [hunits, hzero, Nat.zero_mul]
  have hnlt : n < 10 ^ 12 := by
    have hless := double.magnitude_strictMono hlt
    rw [hmagnitude, magnitude_upperLimit, zpow_ofNat, ← hn] at hless
    exact_mod_cast hless
  obtain ⟨hlower, hupper⟩ := coarsest_bounds hunits hnpos (Nat.lt_trans hnlt (by decide))
  obtain ⟨last, hlast⟩ := Int.eq_ofNat_of_zero_le hlower
  have hfound := onGrid?_zero hwhole htop
  have hmem : last ∈ List.range 20 := List.mem_range.mpr (by omega)
  rw [Layout.shortest, if_neg (Nat.ne_of_gt hpos)]
  cases hscan : (List.range 20).findSome? (fun (step : ℕ) =>
      double.onGrid? code (double.coarsest code - step)) with
  | none =>
      have hnone := List.findSome?_eq_none_iff.mp hscan last hmem
      rw [hlast, Int.sub_self] at hnone
      rw [hnone] at hfound
      contradiction
  | some d =>
      obtain ⟨before, step, behind, hsplit, hgrid, hnone⟩ := List.findSome?_eq_some_iff.mp hscan
      -- no earlier step finds anything, but the grid of the whole numbers does
      have hstep : step ≤ last := by
        have hsorted : (before ++ step :: behind).Pairwise (· < ·) :=
          hsplit ▸ List.pairwise_lt_range
        rw [hsplit] at hmem
        rcases List.mem_append.mp hmem with hbefore | hbehind
        · have hnone' := hnone last hbefore
          rw [hlast, Int.sub_self] at hnone'
          rw [hnone'] at hfound
          contradiction
        · rcases List.mem_cons.mp hbehind with rfl | hlater
          · exact Nat.le_refl _
          · have hcons := (List.pairwise_append.mp hsorted).2.1
            exact Nat.le_of_lt ((List.pairwise_cons.mp hcons).1 last hlater)
      rw [Option.getD_some, exponent_of_onGrid? hgrid, hlast]
      omega

theorem positional_shortest_of_whole (hwhole : Whole code) (hpos : 0 < code)
    (hlt : code < upperLimit) :
    (double.shortest code).positional =
      numeral (double.units code / double.unitDenominator) := by
  obtain ⟨hexponent, hpattern⟩ := shortest_of_whole hwhole hpos hlt
  have hvalue : (double.shortest code).value =
      ((double.shortest code).coefficient * 10 ^ (double.shortest code).exponent.toNat : ℕ) := by
    rw [Decimal.value, Nat.cast_mul, Nat.cast_pow, Nat.cast_ofNat, ← zpow_natCast,
      Int.toNat_of_nonneg hexponent]
  have hmagnitude := value_eq_magnitude hvalue (by rw [hpattern]; exact hlt)
  rw [hpattern, magnitude_of_whole hwhole] at hmagnitude
  rw [Decimal.positional_of_nonneg hexponent, ← Nat.cast_inj.mp hmagnitude]

end Whole

end GraphCalc.Display
