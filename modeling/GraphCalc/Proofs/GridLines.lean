/-
The lines of a grid.  The indices of an axis rise until one more is no other number; there
the count stands still, and the line is drawn again and again.  Within `2 ^ 52` steps from
zero this does not happen, and each axis has few lines, each beyond the one before; from
`2 ^ 54` steps on the first index stands still already.
-/
import GraphCalc.Proofs.DoubleDistances
import GraphCalc.Proofs.GridMarks
import GraphCalc.Proofs.GridSteps
namespace GraphCalc.Grid

open Double
open Layout (double)

/-! ### Axes within reach -/

/-- Logarithm and power are accurate for the extent between two bounds, and the bounds are
not too many steps from zero. -/
structure Measured (lower upper : Float) : Prop where
  accurate : Accurate (upper - lower)
  lower_inReach : InReach lower (usedStep (upper - lower))
  upper_inReach : InReach upper (usedStep (upper - lower))

/-- Few lines, each beyond the one before. -/
structure Distinct (lines : List Line) : Prop where
  length_le : lines.length ≤ 11
  ascending : (lines.map Line.value).Pairwise (· < ·)

theorem map_value_lines (lower upper step : Float) (place : Float → Float) :
    (lines lower upper step place).map Line.value = (marks lower upper step).map Mark.value := by
  rw [lines, List.map_map]
  rfl

section Axis
variable {lower upper : Float} (hlower : lower.isFinite = true) (hupper : upper.isFinite = true)
  (hless : lower < upper)
include hlower hupper hless

theorem width_pos : 0 < value upper - value lower :=
  sub_pos.mpr ((lt_iff_value (pattern_le_of_isFinite hlower) (pattern_le_of_isFinite hupper)).mp
    hless)

/-- The difference of two bounds is rounded only where it has too many bits. -/
theorem extent_bounds (hfinite : (upper - lower).isFinite = true) :
    0 < value (upper - lower) ∧ value upper - value lower ≤ 1.001 * value (upper - lower) := by
  have hwidth := width_pos hlower hupper hless
  obtain ⟨m, hm⟩ := exists_int_units upper
  obtain ⟨n, hn⟩ := exists_int_units lower
  have hunits : |value upper - value lower| * double.unitDenominator = (m - n).natAbs := by
    rw [← abs_of_pos double.unitDenominator_pos, ← abs_mul, sub_mul, hm, hn, Nat.cast_natAbs,
      Int.cast_abs, Int.cast_sub]
  have herror := (rounds_sub hupper hlower).abs_sub_le_of_units hfinite hunits
  rw [abs_of_pos hwidth] at herror
  obtain ⟨hfrom, -⟩ := abs_le.mp herror
  constructor <;> linarith

/-- Where the extent overflows a step of one is used, and the bounds are beyond reach of it. -/
theorem isFinite_extent (hmeasured : Measured lower upper) :
    (upper - lower).isFinite = true := by
  by_contra hinfinite
  rw [Bool.not_eq_true] at hinfinite
  have hstep : usedStep (upper - lower) = 1.0 := by
    rw [usedStep, step?, hinfinite]
    rfl
  have hreach := hmeasured.lower_inReach
  have hreach' := hmeasured.upper_inReach
  rw [hstep, InReach, value_one] at hreach hreach'
  have hwidth := width_pos hlower hupper hless
  obtain ⟨w, hw, hvalue⟩ := exists_value (2 ^ 52) 1 (by decide) (by omega) (by omega)
  have hle : value upper - value lower ≤ value w := by
    rw [hvalue]
    push_cast
    linarith [(abs_le.mp hreach).1, (abs_le.mp hreach').2]
  have hrounds := rounds_sub hupper hlower
  have hfinite := isFinite_of_between (v := upper - lower) (by decide +kernel) hw
    (hrounds.le_value (by decide +kernel) (value_zero.trans_le (le_of_lt hwidth)))
    (hrounds.value_le (pattern_le_of_isFinite hw) hle)
  rw [hinfinite] at hfinite
  contradiction

theorem distinct_lines (hmeasured : Measured lower upper) (place : Float → Float) :
    Distinct (lines lower upper (usedStep (upper - lower)) place) := by
  have hfinite := isFinite_extent hlower hupper hless hmeasured
  obtain ⟨hpos, hwidth⟩ := extent_bounds hlower hupper hless hfinite
  obtain ⟨hstep, hsteppos⟩ := usedStep_pos (upper - lower)
  have hbound := le_usedStep hfinite hpos hmeasured.accurate
  obtain ⟨hlength, hascending⟩ := marks_ascending hlower hupper hstep hsteppos
    hmeasured.lower_inReach hmeasured.upper_inReach (by linarith)
  refine ⟨?_, ?_⟩
  · rwa [lines, List.length_map]
  · rwa [map_value_lines]

end Axis

/-- From one to the end of the table powers of ten are exact. -/
theorem accurate_of_table {extent : Float}
    (h : decade extent = Decimal.leadingExponent (units extent) double.unitDenominator)
    (hlower : 0 ≤ decade extent) (hupper : decade extent ≤ 22) : Accurate extent := by
  have htable : ∀ k < 23, (Double.ofInt (10 ^ k)).isFinite = true ∧
      negative (Double.ofInt (10 ^ k)) = false ∧
        units (Double.ofInt (10 ^ k)) = 10 ^ k * double.unitDenominator := by decide +kernel
  obtain ⟨hfinite, hsign, hunits⟩ := htable (decade extent).toNat (by omega)
  have hpower : powerOfTen (decade extent) = Double.ofInt (10 ^ (decade extent).toNat) := by
    rw [powerOfTen, if_pos ⟨hlower, hupper⟩]
  have hvalue : value (powerOfTen (decade extent)) = 10 ^ decade extent := by
    rw [hpower, value_of_units hsign hunits, Nat.cast_pow, Nat.cast_ofNat, ← zpow_natCast,
      Int.toNat_of_nonneg hlower]
  refine ⟨le_of_eq h.symm, hpower ▸ hfinite, ?_⟩
  rw [hvalue, sub_self, abs_zero]
  have hunit := double.unitDenominator_pos
  exact add_nonneg (by positivity) (div_nonneg (by norm_num) (le_of_lt hunit))

theorem value_mul_unitDenominator {v : Float} (hsign : negative v = false) :
    value v * double.unitDenominator = units v := by
  rw [value_of_positive hsign, Layout.magnitude_mul, units]

theorem inReach_of_units {bound step : Float} (hsign : negative step = false)
    (h : units bound ≤ 2 ^ 52 * units step) : InReach bound step := by
  refine le_of_mul_le_mul_right ?_ double.unitDenominator_pos
  rw [mul_assoc, value_mul_unitDenominator hsign, ← units_eq_abs_value]
  exact_mod_cast h

/-! ### Axes where the count stands still -/

/-- The index of the first line between two bounds. -/
def firstIndex (lower upper : Float) : Float :=
  ceil (lower / usedStep (upper - lower))

def lastIndex (lower upper : Float) : Float :=
  floor (upper / usedStep (upper - lower))

/-- One more than the first index is the first index. -/
def Still (lower upper : Float) : Prop :=
  firstIndex lower upper + 1.0 = firstIndex lower upper

def lineAt (step : Float) (place : Float → Float) (index : Float) : Line :=
  ⟨index * step, place (index * step),
    if toWord index = 0 then none else some (label (index * step))⟩

/-- The first line as often as lines are allowed; none where the indices have no finite
difference. -/
def repeatedLines (lower upper : Float) (place : Float → Float) : List Line :=
  if (lastIndex lower upper - firstIndex lower upper).isFinite then
    List.replicate lineLimit (lineAt (usedStep (upper - lower)) place (firstIndex lower upper))
  else []

theorem countFrom_still {index last : Float} (hstill : index + 1.0 = index)
    (hle : index ≤ last) (count : ℕ) :
    countFrom count index last = List.replicate count index := by
  induction count with
  | zero => rfl
  | succ count ih => rw [countFrom, if_pos hle, hstill, ih, List.replicate_succ]

/-- Indices that rise up to the last one, and this one so many times; more than once where it
stands still, and then to the end of the count. -/
structure Climb (count : ℕ) (rising : List Float) (last : Float) (times : ℕ) : Prop where
  ascending : (rising ++ [last]).Pairwise (fun v w => value v < value w)
  times_le : times ≤ 1 ∨ last + 1.0 = last ∧ rising.length + times = count

/-- One more is greater, or it is no other number. -/
theorem value_lt_add_one {v : Float} (hfinite : v.isFinite = true) (hmoves : v + 1.0 ≠ v) :
    value v < value (v + 1.0) := by
  have hone : (1.0 : Float).isFinite = true := by decide +kernel
  have hsum := rounds_add hfinite hone
  rw [value_one] at hsum
  refine lt_of_le_of_ne (hsum.le_value (pattern_le_of_isFinite hfinite) (by linarith)) ?_
  intro heq
  by_cases hzero : value v = 0
  · have hexact := hsum.value_eq (pattern_le_of_isFinite hone) (by rw [hzero, value_one, zero_add])
    linarith
  · exact hmoves (eq_of_value hzero heq.symm)

/-- The count from an index rises until it stands still. -/
theorem exists_climb {first last : Float} (hfirst : first.isFinite = true)
    (hlast : last.isFinite = true) (count : ℕ) {index : Float}
    (hpattern : pattern index ≤ 2047 * 2 ^ 52) (hge : value first ≤ value index) :
    ∃ (rising : List Float) (final : Float) (times : ℕ),
      countFrom count index last = rising ++ List.replicate times final ∧
        Climb count rising final times ∧ ∀ v ∈ rising ++ [final], value index ≤ value v := by
  induction count generalizing index with
  | zero => exact ⟨[], index, 0, rfl, ⟨by simp, Or.inl (Nat.zero_le 1)⟩, by simp⟩
  | succ count ih =>
      by_cases hle : index ≤ last
      · have hle' := (le_iff_value hpattern (pattern_le_of_isFinite hlast)).mp hle
        have hfinite := isFinite_of_between hfirst hlast hge hle'
        by_cases hstill : index + 1.0 = index
        · refine ⟨[], index, count + 1, countFrom_still hstill hle _, ⟨by simp, Or.inr ?_⟩, by simp⟩
          exact ⟨hstill, Nat.zero_add _⟩
        · have hless := value_lt_add_one hfinite hstill
          have hsum := rounds_add hfinite (by decide +kernel : (1.0 : Float).isFinite = true)
          obtain ⟨rising, final, times, heq, hclimb, habove⟩ :=
            ih hsum.pattern_le (hge.trans hless.le)
          refine ⟨index :: rising, final, times, ?_, ⟨?_, ?_⟩, ?_⟩
          · rw [countFrom, if_pos hle, heq, List.cons_append]
          · refine List.Pairwise.cons (fun v hv => ?_) hclimb.ascending
            exact lt_of_lt_of_le hless (habove v hv)
          · refine hclimb.times_le.imp_right (And.imp_right (fun hlength => ?_))
            rw [List.length_cons]
            omega
          · intro v hv
            rcases List.mem_cons.mp hv with rfl | hmem
            · exact le_refl _
            · exact hless.le.trans (habove v hmem)
      · refine ⟨[], index, 0, ?_, ⟨by simp, Or.inl (Nat.zero_le 1)⟩, by simp⟩
        rw [countFrom, if_neg hle]
        rfl

section Bounds
variable {lower upper : Float} (hlower : lower.isFinite = true) (hupper : upper.isFinite = true)
  (hless : lower < upper)
include hlower hupper hless

/-- Between finite ascending bounds only the indices can leave an axis empty. -/
theorem marks_between : marks lower upper (usedStep (upper - lower)) =
    if !(lastIndex lower upper - firstIndex lower upper).isFinite ||
        lastIndex lower upper < firstIndex lower upper then []
    else (countFrom lineLimit (firstIndex lower upper) (lastIndex lower upper)).map
      (fun index => ⟨toWord index, index * usedStep (upper - lower)⟩) := by
  obtain ⟨hstep, hpos⟩ := usedStep_pos (upper - lower)
  obtain ⟨step, hused⟩ : ∃ step, step = usedStep (upper - lower) := ⟨_, rfl⟩
  rw [firstIndex, lastIndex]
  rw [← hused] at hstep hpos ⊢
  have hnumber : step.isNaN = false := isNaN_of_isFinite hstep
  have hsteppos : ¬ step ≤ 0.0 := by
    rw [le_iff_value (pattern_le_of_isFinite hstep) (by decide +kernel), value_zero, not_le]
    exact hpos
  have hascending : ¬ upper < lower := by
    rw [lt_iff_value (pattern_le_of_isFinite hlower) (pattern_le_of_isFinite hupper)] at hless
    rw [lt_iff_value (pattern_le_of_isFinite hupper) (pattern_le_of_isFinite hlower)]
    exact lt_asymm hless
  have hbounds : (Scale.isNaN step || decide (step ≤ 0.0) || !Scale.isFinite lower ||
      !Scale.isFinite upper || decide (upper < lower)) = false := by
    simp only [Scale.isNaN, Scale.isFinite, hnumber, hlower, hupper, decide_eq_false hsteppos,
      decide_eq_false hascending, Bool.not_true, Bool.or_self]
  rw [marks, hbounds, if_neg Bool.false_ne_true]
  rfl

/-- However far the bounds are, the lines are those of indices that rise, up to one that
stands still. -/
theorem lines_climb (place : Float → Float) :
    ∃ (rising : List Float) (final : Float) (times : ℕ),
      lines lower upper (usedStep (upper - lower)) place =
          (rising ++ List.replicate times final).map
            (lineAt (usedStep (upper - lower)) place) ∧
        Climb lineLimit rising final times := by
  rw [lines, marks_between hlower hupper hless]
  split
  · exact ⟨[], 0.0, 0, rfl, ⟨by simp, Or.inl (Nat.zero_le 1)⟩⟩
  · next hindices =>
      rw [Bool.or_eq_true, not_or, Bool.not_eq_true', Bool.not_eq_false] at hindices
      obtain ⟨hlast, hfirst⟩ := isFinite_of_isFinite_sub hindices.1
      obtain ⟨rising, final, times, heq, hclimb, -⟩ :=
        exists_climb hfirst hlast lineLimit (pattern_le_of_isFinite hfirst) (le_refl _)
      refine ⟨rising, final, times, ?_, hclimb⟩
      rw [heq, List.map_map]
      rfl

/-- Where the count stands still, the first index is not beyond the last one. -/
theorem firstIndex_le_lastIndex (hstill : Still lower upper)
    (hfinite : (lastIndex lower upper - firstIndex lower upper).isFinite = true) :
    firstIndex lower upper ≤ lastIndex lower upper := by
  obtain ⟨hstep, hpos⟩ := usedStep_pos (upper - lower)
  obtain ⟨hlast, hfirst⟩ := isFinite_of_isFinite_sub hfinite
  have hquotient := isFinite_of_ceil hfirst
  have hquotient' := isFinite_of_floor hlast
  rw [lt_iff_value (pattern_le_of_isFinite hlower) (pattern_le_of_isFinite hupper)] at hless
  have hmono := (rounds_div hlower hstep (ne_of_gt hpos)).mono
    (rounds_div hupper hstep (ne_of_gt hpos)) (div_le_div_of_nonneg_right hless.le hpos.le)
  obtain ⟨k, hk⟩ := exists_int_of_isWhole hquotient (isWhole_of_add_one hquotient hstill)
  have hindex := index_ceil hquotient
  rw [hk, Int.ceil_intCast] at hindex
  refine (hindex.le_iff (index_floor hquotient')).mpr (Int.le_floor.mpr ?_)
  rwa [← hk]

/-- There the first line is drawn again and again, or none. -/
theorem lines_still (hstill : Still lower upper) (place : Float → Float) :
    lines lower upper (usedStep (upper - lower)) place = repeatedLines lower upper place := by
  rw [lines, marks_between hlower hupper hless, repeatedLines]
  cases hfinite : (lastIndex lower upper - firstIndex lower upper).isFinite with
  | false => rfl
  | true =>
      have hle := firstIndex_le_lastIndex hlower hupper hless hstill hfinite
      obtain ⟨hlast, hfirst⟩ := isFinite_of_isFinite_sub hfinite
      have hnot : ¬ lastIndex lower upper < firstIndex lower upper := by
        rw [le_iff_value (pattern_le_of_isFinite hfirst) (pattern_le_of_isFinite hlast)] at hle
        rw [lt_iff_value (pattern_le_of_isFinite hlast) (pattern_le_of_isFinite hfirst)]
        exact not_lt_of_ge hle
      rw [decide_eq_false hnot, Bool.not_true, Bool.or_self, if_neg Bool.false_ne_true, if_pos rfl,
        countFrom_still hstill hle, List.map_replicate, List.map_replicate]
      rfl

end Bounds

/-! ### Axes beyond reach -/

section Far
variable {v : Float} {k : ℤ}

/-- From `2 ^ 54` up doubles are four apart or more. -/
theorem exists_four_mul (h : 2 ^ 54 ≤ |value v|) : ∃ j : ℤ, value v = 4 * j := by
  obtain ⟨block, m, hcode, hlt, hge⟩ := double.exists_block (pattern v)
  have hunits := double.units_block (Nat.le_of_lt hlt) hge
  rw [← hcode] at hunits
  have hpos := double.unitDenominator_pos
  obtain ⟨unit, hunit⟩ : ∃ unit : ℕ, unit = double.unitDenominator := ⟨_, rfl⟩
  have hpow : 2 ^ double.unit = unit := hunit.symm
  have hlarge : 2 ^ 54 * unit ≤ m * 2 ^ block := by
    rw [abs_value, Layout.magnitude, hunits, ← hunit, le_div_iff₀ (hunit ▸ hpos)] at h
    exact_mod_cast h
  have hblock : double.unit + 2 ≤ block := by
    by_contra hless
    have hhalf : 2 * double.half = 2 ^ 53 := rfl
    have hle : 2 ^ block ≤ unit * 2 := by
      rw [← hpow, ← Nat.pow_succ]
      exact Nat.pow_le_pow_right Nat.two_pos (by omega)
    have hunitpos : 0 < unit := hpow ▸ Nat.two_pow_pos _
    have hmul : m * 2 ^ block < 2 ^ 53 * (unit * 2) :=
      Nat.mul_lt_mul_of_lt_of_le (by omega) hle (by omega)
    omega
  obtain ⟨more, rfl⟩ := Nat.exists_eq_add_of_le hblock
  have habs : |value v| = 4 * (m * 2 ^ more : ℕ) := by
    rw [abs_value, Layout.magnitude, hunits, ← hunit, Nat.pow_add, Nat.pow_add, hpow,
      div_eq_iff (ne_of_gt (hunit ▸ hpos))]
    push_cast
    ring
  rcases abs_choice (value v) with hvalue | hvalue
  · exact ⟨(m * 2 ^ more : ℕ), by rw [← hvalue, habs, Int.cast_natCast]⟩
  · refine ⟨-(m * 2 ^ more : ℕ), ?_⟩
    rw [Int.cast_neg, Int.cast_natCast, mul_neg, ← habs, hvalue, neg_neg]

/-- There one more is nearest to the number itself, or as near as to the next one, whose
last bit is odd. -/
theorem add_one_of_far (hv : Index v k) (hfar : 2 ^ 54 ≤ |k|) : v + 1.0 = v := by
  have hfar' : (2 ^ 54 : ℚ) ≤ |value v| := by
    rw [hv.value_eq]
    exact_mod_cast hfar
  have hne : value v ≠ 0 := by
    rw [← abs_pos]
    exact lt_of_lt_of_le (by norm_num) hfar'
  obtain ⟨i, hi⟩ := exists_four_mul hfar'
  have hk : k = 4 * i := by
    rw [hv.value_eq] at hi
    exact_mod_cast hi
  rcases eq_or_ne k (-2 ^ 54) with hedge | hother
  · -- below this number in magnitude the doubles are only two apart
    have hvalue : value (-18014398509481984.0) = value v := by
      rw [value_neg (by decide +kernel), hv.value_eq, hedge,
        value_of_units (n := 2 ^ 54) (by decide +kernel) (by decide +kernel)]
      norm_num
    rw [← eq_of_value hne hvalue]
    decide +kernel
  have hsum := rounds_add hv.isFinite (by decide +kernel : (1.0 : Float).isFinite = true)
  have hnear := hsum.abs_sub_le_abs_sub (pattern_le_of_isFinite hv.isFinite)
  rw [value_one, sub_add_cancel_left, abs_neg, abs_one, hv.value_eq, abs_le] at hnear
  have hsumfar : (2 ^ 54 : ℚ) ≤ |value (v + 1.0)| := by
    rcases le_abs.mp hfar with hup | hdown
    · have hup' : (2 ^ 54 : ℚ) ≤ k := by exact_mod_cast hup
      exact le_abs.mpr (Or.inl (by linarith [hnear.1]))
    · have hdown' : (k : ℚ) + 4 ≤ -2 ^ 54 := by exact_mod_cast (by omega : k + 4 ≤ -2 ^ 54)
      exact le_abs.mpr (Or.inr (by linarith [hnear.2]))
  obtain ⟨j, hj⟩ := exists_four_mul hsumfar
  refine eq_of_value hne ?_
  rw [hj, hk] at hnear
  push_cast at hnear
  have hlower : 4 * i ≤ 4 * j := by exact_mod_cast (by linarith [hnear.1] : (4 * i : ℚ) ≤ 4 * j)
  have hupper : 4 * j ≤ 4 * i + 2 := by
    exact_mod_cast (by linarith [hnear.2] : (4 * j : ℚ) ≤ 4 * i + 2)
  have hsame : i = j := by omega
  rw [hi, hj, hsame]

theorem add_one_of_not_isFinite (hfinite : v.isFinite = false) (hle : pattern v ≤ 2047 * 2 ^ 52) :
    v + 1.0 = v := by
  rw [isFinite_eq, decide_eq_false_iff_not] at hfinite
  have hpattern : pattern v = 2047 * 2 ^ 52 := by omega
  rw [← ofPattern_pattern hle, hpattern]
  cases negative v <;> decide +kernel

end Far

/-- The first bound is so many steps from zero that one more is no other number. -/
def Far (lower upper : Float) : Prop :=
  2 ^ 54 * value (usedStep (upper - lower)) ≤ |value lower|

theorem still_of_far {lower upper : Float} (hlower : lower.isFinite = true)
    (hfar : Far lower upper) : Still lower upper := by
  obtain ⟨hstep, hpos⟩ := usedStep_pos (upper - lower)
  rw [Far] at hfar
  rw [Still, firstIndex]
  obtain ⟨step, hused⟩ : ∃ step, step = usedStep (upper - lower) := ⟨_, rfl⟩
  rw [← hused] at hstep hpos hfar ⊢
  have hquotient := rounds_div hlower hstep (ne_of_gt hpos)
  cases hfinite : (lower / step).isFinite with
  | false =>
      have hceil : ceil (lower / step) = lower / step := by simp [ceil, hfinite]
      rw [hceil]
      exact add_one_of_not_isFinite hfinite hquotient.pattern_le
  | true =>
      refine add_one_of_far (index_ceil hfinite) ?_
      obtain ⟨w, hw, hvalue⟩ := exists_value (2 ^ 52) 2 (by decide) (by omega) (by omega)
      have hvalue' : value w = 2 ^ 54 := by
        rw [hvalue]
        norm_num
      have hw' := pattern_le_of_isFinite hw
      rw [← le_div_iff₀ hpos, ← abs_of_pos hpos, ← abs_div, ← hvalue'] at hfar
      rcases le_abs.mp hfar with hup | hdown
      · have hge := (hquotient.le_value hw' hup).trans (Int.le_ceil _)
        rw [hvalue'] at hge
        exact le_abs.mpr (Or.inl (by exact_mod_cast hge))
      · have hle := hquotient.neg.le_value hw' hdown
        rw [value_neg hquotient.pattern_le, hvalue', le_neg] at hle
        have hceil : ⌈value (lower / step)⌉ ≤ -2 ^ 54 := Int.ceil_le.mpr (by push_cast; exact hle)
        exact le_abs.mpr (Or.inr (by omega))

/-! ### Both axes -/

theorem plan_vertical (view : Viewport) (width height : Float) :
    (plan view width height).vertical =
      lines view.xMin view.xMax (usedStep view.extentX) (view.toColumn width) :=
  rfl

theorem plan_horizontal (view : Viewport) (width height : Float) :
    (plan view width height).horizontal =
      lines view.yMin view.yMax (usedStep view.extentY) (view.toRow height) :=
  rfl

/-- What the lines between two bounds are: few, each beyond the one before, within reach of
zero; the first one again and again where the count stands still, as it does far from
zero.  Between these distances the count may rise before it stands still. -/
structure Described (lower upper : Float) (place : Float → Float) (lines : List Line) : Prop where
  climb : ∃ (rising : List Float) (final : Float) (times : ℕ),
    lines = (rising ++ List.replicate times final).map
        (lineAt (usedStep (upper - lower)) place) ∧
      Climb lineLimit rising final times
  distinct : Measured lower upper → Distinct lines
  repeated : Still lower upper → lines = repeatedLines lower upper place
  still : Far lower upper → Still lower upper

theorem plan_lines {view : Viewport} (hvalid : view.Valid) (width height : Float) :
    Described view.xMin view.xMax (view.toColumn width) (plan view width height).vertical ∧
      Described view.yMin view.yMax (view.toRow height) (plan view width height).horizontal := by
  obtain ⟨⟨hxMin, hxMax, hyMin, hyMax⟩, hx, hy⟩ := hvalid
  rw [plan_vertical, plan_horizontal]
  exact ⟨⟨lines_climb hxMin hxMax hx _,
      fun hmeasured => distinct_lines hxMin hxMax hx hmeasured _,
      fun hstill => lines_still hxMin hxMax hx hstill _, still_of_far hxMin⟩,
    ⟨lines_climb hyMin hyMax hy _,
      fun hmeasured => distinct_lines hyMin hyMax hy hmeasured _,
      fun hstill => lines_still hyMin hyMax hy hstill _, still_of_far hyMin⟩⟩

/-- Two neighbouring doubles from left to right, and ten units around zero from bottom to
top. -/
def narrow : Viewport :=
  ⟨100000000000000000.0, 100000000000000016.0, -10.0, 10.0⟩

theorem far_narrow : Far narrow.xMin narrow.xMax := by
  have hunits : 2 ^ 54 * units (usedStep (narrow.xMax - narrow.xMin)) ≤ units narrow.xMin := by
    decide +kernel
  refine le_of_mul_le_mul_right ?_ double.unitDenominator_pos
  rw [mul_assoc, value_mul_unitDenominator (by decide +kernel), ← units_eq_abs_value]
  exact_mod_cast hunits

/-- Sixteen units where doubles are four apart: the first line is only `2 ^ 53` steps from
zero, but the count stands still there, too. -/
def close : Viewport :=
  ⟨18014398509481984.0, 18014398509482000.0, -10.0, 10.0⟩

theorem not_far_close : ¬ Far close.xMin close.xMax := by
  have hunits : units close.xMin < 2 ^ 54 * units (usedStep (close.xMax - close.xMin)) := by
    decide +kernel
  rw [Far, not_le]
  refine lt_of_mul_lt_mul_right ?_ (le_of_lt double.unitDenominator_pos)
  rw [mul_assoc, value_mul_unitDenominator (by decide +kernel), ← units_eq_abs_value]
  exact_mod_cast hunits

theorem plan_lines_narrow :
    (plan narrow 64.0 64.0).vertical =
        repeatedLines narrow.xMin narrow.xMax (narrow.toColumn 64.0) ∧
      Distinct (plan narrow 64.0 64.0).horizontal ∧
      ¬ Far close.xMin close.xMax ∧
      (plan close 64.0 64.0).vertical =
        repeatedLines close.xMin close.xMax (close.toColumn 64.0) := by
  have hmeasured : Measured narrow.yMin narrow.yMax :=
    ⟨accurate_of_table (by decide +kernel) (by decide +kernel) (by decide +kernel),
      inReach_of_units (by decide +kernel) (by decide +kernel),
      inReach_of_units (by decide +kernel) (by decide +kernel)⟩
  obtain ⟨hvertical, hhorizontal⟩ :=
    plan_lines (by decide +kernel : narrow.Valid) 64.0 64.0
  obtain ⟨hclose, -⟩ := plan_lines (by decide +kernel : close.Valid) 64.0 64.0
  have hstill : Still close.xMin close.xMax := by
    rw [Still]
    decide +kernel
  exact ⟨hvertical.repeated (hvertical.still far_narrow), hhorizontal.distinct hmeasured,
    not_far_close, hclose.repeated hstill⟩

/-- In that window the line on the left is drawn a thousand times. -/
theorem vertical_narrow : narrow.Valid ∧
    (∃ line, (plan narrow 64.0 64.0).vertical = List.replicate 1000 line) ∧
      ¬ Distinct (plan narrow 64.0 64.0).vertical := by
  have hlines : ∃ line, (plan narrow 64.0 64.0).vertical = List.replicate 1000 line := by
    have hfinite : (lastIndex narrow.xMin narrow.xMax -
        firstIndex narrow.xMin narrow.xMax).isFinite = true := by decide +kernel
    have hstill : Still narrow.xMin narrow.xMax := still_of_far (by decide +kernel) far_narrow
    have hrepeated : repeatedLines narrow.xMin narrow.xMax (narrow.toColumn 64.0) =
        List.replicate lineLimit (lineAt (usedStep (narrow.xMax - narrow.xMin))
          (narrow.toColumn 64.0) (firstIndex narrow.xMin narrow.xMax)) := if_pos hfinite
    refine ⟨_, Eq.trans ?_ hrepeated⟩
    rw [plan_vertical]
    exact lines_still (by decide +kernel) (by decide +kernel) (by decide +kernel) hstill _
  refine ⟨by decide +kernel, hlines, fun hdistinct => ?_⟩
  obtain ⟨line, hline⟩ := hlines
  have hlength := hdistinct.length_le
  rw [hline, List.length_replicate] at hlength
  omega

end GraphCalc.Grid
