/-
The grid in exact arithmetic.  The step for an extent is one, two or five units of a decimal
place and goes into the extent four to ten times; the marks are all multiples of the step
between the bounds, wherever these lie.
-/
import GraphCalc.Grid
import Mathlib.Data.Int.Log
import Mathlib.Data.Int.Range
import Mathlib.Data.Rat.Floor
import Mathlib.Tactic.Linarith
import Mathlib.Tactic.NormNum
namespace GraphCalc.Grid

/-- Rational numbers are finite and are not rounded. -/
instance : Scale ℚ where
  isNaN _ := false
  isFinite _ := true
  floor x := ⌊x⌋
  ceil x := ⌈x⌉
  toWord x := max (-0x8000000000000000) (min 0x7FFFFFFFFFFFFFFF (if x < 0 then ⌈x⌉ else ⌊x⌋))

/-! ### The step -/

/-- The extent is in the decade that begins with this power of ten. -/
structure Decade (extent : ℚ) (n : ℤ) : Prop where
  lower : 10 ^ n ≤ extent
  upper : extent < 10 * 10 ^ n

theorem decade_log {extent : ℚ} (hpos : 0 < extent) : Decade extent (Int.log 10 extent) where
  lower := by exact_mod_cast Int.zpow_log_le_self (b := 10) (by decide) hpos
  upper := by
    have hupper := Int.lt_zpow_succ_log_self (b := 10) (by decide) extent
    rwa [zpow_add_one₀ (by decide), mul_comm, Nat.cast_ofNat] at hupper

theorem Decade.unique {extent : ℚ} {n n' : ℤ} (h : Decade extent n) (h' : Decade extent n') :
    n = n' := by
  have hless {k l : ℤ} (hk : Decade extent k) (hl : Decade extent l) : k ≤ l := by
    have hpower : (10 : ℚ) ^ k < 10 ^ (l + 1) := by
      rw [zpow_add_one₀ (by norm_num), mul_comm]
      exact hk.lower.trans_lt hl.upper
    exact Int.lt_add_one_iff.mp ((zpow_lt_zpow_iff_right₀ (by norm_num)).mp hpower)
  exact le_antisymm (hless h h') (hless h' h)

/-- One, two or five units of a decimal place. -/
def RoundNumber (step : ℚ) : Prop :=
  ∃ (m : ℕ) (k : ℤ), (m = 1 ∨ m = 2 ∨ m = 5) ∧ step = m * 10 ^ k

/-- The step for an extent is a round number, and it goes into the extent four to ten
times. -/
structure StepFor (extent step : ℚ) : Prop where
  round : RoundNumber step
  lower : 4 * step < extent
  upper : extent ≤ 10 * step

theorem stepFor_stepOf {extent : ℚ} {n : ℤ} (h : Decade extent n) :
    StepFor extent (stepOf extent (10 ^ n)) := by
  have hpower : (0 : ℚ) < 10 ^ n := zpow_pos (by norm_num) n
  have hplace : (10 : ℚ) ^ n = 10 * 10 ^ (n - 1) := by
    rw [mul_comm, ← zpow_add_one₀ (by norm_num), sub_add_cancel]
  have hfrom := h.lower
  have hto := h.upper
  rw [stepOf]
  split
  · next htwo =>
      rw [div_le_iff₀ hpower] at htwo
      refine ⟨⟨2, n - 1, by decide, ?_⟩, by linarith, by linarith⟩
      rw [hplace]
      norm_num
      ring
  · next htwo =>
      rw [div_le_iff₀ hpower, not_le] at htwo
      split
      · next hfive =>
          rw [div_le_iff₀ hpower] at hfive
          refine ⟨⟨5, n - 1, by decide, ?_⟩, by linarith, by linarith⟩
          rw [hplace]
          norm_num
          ring
      · next hfive =>
          rw [div_le_iff₀ hpower, not_le] at hfive
          exact ⟨⟨1, n, by decide, by rw [Nat.cast_one, one_mul]⟩, by linarith, by linarith⟩

theorem StepFor.pos {extent step : ℚ} (h : StepFor extent step) : 0 < step := by
  have hlower := h.lower
  have hupper := h.upper
  linarith

/-! ### The multiples between two bounds -/

/-- The indices of the multiples of a step from `lower` to `upper`. -/
def indices (lower upper step : ℚ) : List ℤ :=
  Int.range ⌈lower / step⌉ (⌊upper / step⌋ + 1)

section Indices
variable {lower upper step : ℚ}

theorem mem_indices (hpos : 0 < step) {k : ℤ} :
    k ∈ indices lower upper step ↔ lower ≤ k * step ∧ k * step ≤ upper := by
  rw [indices, Int.mem_range_iff, Int.lt_add_one_iff, Int.ceil_le, Int.le_floor, div_le_iff₀ hpos,
    le_div_iff₀ hpos]

theorem ascending_indices : (indices lower upper step).Pairwise (· < ·) := by
  rw [indices, Int.range, List.pairwise_map]
  exact List.pairwise_lt_range.imp (fun hlt => by omega)

/-- Wherever they lie, bounds that are four to ten steps apart have four to eleven multiples
between them. -/
theorem length_indices (h : StepFor (upper - lower) step) :
    4 ≤ (indices lower upper step).length ∧ (indices lower upper step).length ≤ 11 := by
  have hpos := h.pos
  have hwidth : upper / step - lower / step = (upper - lower) / step := (sub_div ..).symm
  have hlower := (lt_div_iff₀ hpos).mpr h.lower
  have hupper := (div_le_iff₀ hpos).mpr h.upper
  rw [← hwidth] at hlower hupper
  have hfirst := Int.le_ceil (lower / step)
  have hfirst' := Int.ceil_lt_add_one (lower / step)
  have hlast := Int.floor_le (upper / step)
  have hlast' := Int.lt_floor_add_one (upper / step)
  have hmany : (2 : ℚ) < ⌊upper / step⌋ - ⌈lower / step⌉ := by linarith
  have hfew : (⌊upper / step⌋ - ⌈lower / step⌉ : ℚ) ≤ 10 := by linarith
  have hmany' : 2 < ⌊upper / step⌋ - ⌈lower / step⌉ := by exact_mod_cast hmany
  have hfew' : ⌊upper / step⌋ - ⌈lower / step⌉ ≤ 10 := by exact_mod_cast hfew
  rw [indices, Int.range, List.length_map, List.length_range]
  omega

end Indices

/-! ### Counting -/

theorem range_of_le {first last : ℤ} (h : first ≤ last) :
    Int.range first (last + 1) = first :: Int.range (first + 1) (last + 1) := by
  have hlength : (last + 1 - first).toNat = (last + 1 - (first + 1)).toNat + 1 := by omega
  rw [Int.range, Int.range, hlength, List.range_succ_eq_map, List.map_cons, List.map_map]
  refine congrArg₂ List.cons (by omega) (List.map_congr_left (fun i _ => ?_))
  simp only [Function.comp_apply]
  omega

/-- A count that has room for them gives all integers from the first to the last. -/
theorem countFrom_cast {last : ℤ} (count : ℕ) {first : ℤ} (hroom : last + 1 - first ≤ count) :
    countFrom count (first : ℚ) last = (Int.range first (last + 1)).map Int.cast := by
  induction count generalizing first with
  | zero =>
      have hnone : (last + 1 - first).toNat = 0 := by omega
      rw [countFrom, Int.range, hnone]
      rfl
  | succ count ih =>
      rw [countFrom]
      split
      · next hle =>
          have hnext : (first : ℚ) + 1.0 = (first + 1 : ℤ) := by
            push_cast
            norm_num
          rw [range_of_le (Int.cast_le.mp hle), hnext, ih (by omega)]
          rfl
      · next hless =>
          rw [not_le, Int.cast_lt] at hless
          have hnone : (last + 1 - first).toNat = 0 := by omega
          rw [Int.range, hnone]
          rfl

/-! ### The marks of an axis -/

/-- The mark at a multiple of the step; its index is kept within the range of a word. -/
def markAt (step : ℚ) (k : ℤ) : Mark ℚ :=
  ⟨max (-0x8000000000000000) (min 0x7FFFFFFFFFFFFFFF k), k * step⟩

theorem toWord_cast (k : ℤ) :
    Scale.toWord (k : ℚ) = max (-0x8000000000000000) (min 0x7FFFFFFFFFFFFFFF k) := by
  simp only [Scale.toWord, Int.ceil_intCast, Int.floor_intCast, ite_self]

/-- Where there are fewer than a thousand multiples all of them are marked. -/
theorem marks_eq {lower upper step : ℚ} (hpos : 0 < step) (hless : lower ≤ upper)
    (hfew : (indices lower upper step).length ≤ lineLimit) :
    marks lower upper step = (indices lower upper step).map (markAt step) := by
  have hroom : ⌊upper / step⌋ + 1 - ⌈lower / step⌉ ≤ lineLimit := by
    rw [indices, Int.range, List.length_map, List.length_range] at hfew
    omega
  have hbounds : (Scale.isNaN step || decide (step ≤ 0.0) || !Scale.isFinite lower ||
      !Scale.isFinite upper || decide (upper < lower)) = false := by
    have hstep : ¬ step ≤ 0.0 := by
      norm_num
      exact hpos
    simp [Scale.isNaN, Scale.isFinite, hstep, hless]
  rw [marks, hbounds, if_neg Bool.false_ne_true]
  dsimp only [Scale.ceil, Scale.floor]
  split
  · next hnone =>
      simp only [Scale.isFinite, Bool.not_true, Bool.false_or, decide_eq_true_eq,
        Int.cast_lt] at hnone
      have hempty : (⌊upper / step⌋ + 1 - ⌈lower / step⌉).toNat = 0 := by omega
      rw [indices, Int.range, hempty]
      rfl
  · rw [countFrom_cast lineLimit hroom, ← indices, List.map_map]
    refine List.map_congr_left (fun k _ => ?_)
    simp only [Function.comp_apply, toWord_cast, markAt]

/-- From four to eleven marks, which are all multiples of the step between the bounds in
ascending order. -/
structure Complete (lower upper step : ℚ) : Prop where
  marks_eq : marks lower upper step = (indices lower upper step).map (markAt step)
  mem_iff : ∀ k, k ∈ indices lower upper step ↔ lower ≤ k * step ∧ k * step ≤ upper
  ascending : (indices lower upper step).Pairwise (· < ·)
  le_length : 4 ≤ (marks lower upper step).length
  length_le : (marks lower upper step).length ≤ 11

theorem complete_of_stepFor {lower upper step : ℚ} (h : StepFor (upper - lower) step) :
    Complete lower upper step := by
  have hpos := h.pos
  have hwidth := h.lower
  obtain ⟨hmany, hfew⟩ := length_indices h
  have heq := marks_eq hpos (by linarith) (hfew.trans (by decide))
  refine ⟨heq, fun k => mem_indices hpos, ascending_indices, ?_, ?_⟩
  · rwa [heq, List.length_map]
  · rwa [heq, List.length_map]

/-- An extent is in one decade; the step that is chosen there is a round number, and between
any two bounds at that distance the marks are complete. -/
theorem complete_marks {extent : ℚ} (hpos : 0 < extent) : (∃! n, Decade extent n) ∧
    ∀ n, Decade extent n → RoundNumber (stepOf extent (10 ^ n)) ∧
      ∀ lower upper, upper - lower = extent → Complete lower upper (stepOf extent (10 ^ n)) := by
  refine ⟨⟨_, decade_log hpos, fun n h => h.unique (decade_log hpos)⟩, fun n h => ?_⟩
  have hstep := stepFor_stepOf h
  refine ⟨hstep.round, fun lower upper hextent => ?_⟩
  subst hextent
  exact complete_of_stepFor hstep

/-- Bounds that are no multiples themselves. -/
theorem complete_marks_third : Complete (1 / 3) (22 / 3) (stepOf 7 1) := by
  have hdecade : Decade 7 0 := ⟨by norm_num, by norm_num⟩
  have hcomplete := ((complete_marks (by norm_num : (0 : ℚ) < 7)).2 0 hdecade).2 (1 / 3) (22 / 3)
    (by norm_num)
  rwa [zpow_zero] at hcomplete

-- Both bounds on the number of marks are reached.
example : (marks (1 / 20) (43 / 20) (stepOf (21 / 10) 1 : ℚ)).length = 4 := by decide +kernel
example : (marks 0 20 (stepOf 20 10 : ℚ)).length = 11 := by decide +kernel

end GraphCalc.Grid
