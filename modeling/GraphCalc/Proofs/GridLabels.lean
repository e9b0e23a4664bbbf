/-
The labels of the lines of a grid.  Two lines of an axis have one label exactly where they
have one value or rounding merges their values, and on an axis that is close to zero and
neither narrow nor long rounding merges none.
-/
import GraphCalc.Proofs.GridLines
import GraphCalc.Proofs.LabelText
namespace GraphCalc.Grid

open Double
open Layout (double)

/-! ### Counted indices -/

/-- A count between two finite numbers stays between them. -/
theorem isFinite_of_mem_countFrom {first last : Float} (hfirst : first.isFinite = true)
    (hlast : last.isFinite = true) (count : ℕ) {index : Float}
    (hnumber : pattern index ≤ 2047 * 2 ^ 52) (hle : value first ≤ value index) :
    ∀ v ∈ countFrom count index last, v.isFinite = true := by
  -- an index may overflow only behind the last one, and then the count has ended
  induction count generalizing index with
  | zero => simp [countFrom]
  | succ count ih =>
      rw [countFrom]
      split
      · next hindex =>
          rw [le_iff_value hnumber (pattern_le_of_isFinite hlast)] at hindex
          have hfinite := isFinite_of_between hfirst hlast hle hindex
          have hnext := rounds_add hfinite (by decide +kernel : (1.0 : Float).isFinite = true)
          rw [value_one] at hnext
          have hrest := ih hnext.pattern_le
            (hle.trans (hnext.le_value hnumber (le_add_of_nonneg_right zero_le_one)))
          intro v hv
          rcases List.mem_cons.mp hv with rfl | hv
          · exact hfinite
          · exact hrest v hv
      · simp

theorem exists_index_of_mem_marks {lower upper step : Float} {mark : Mark Float}
    (h : mark ∈ marks lower upper step) :
    ∃ index : Float, index.isFinite = true ∧ mark = ⟨toWord index, index * step⟩ := by
  rcases marks_cases lower upper step with hnone | ⟨hfinite, hmarks⟩
  · rw [hnone] at h
    contradiction
  · obtain ⟨hlast, hfirst⟩ := isFinite_of_isFinite_sub hfinite
    rw [hmarks] at h
    obtain ⟨index, hindex, rfl⟩ := List.mem_map.mp h
    exact ⟨index, isFinite_of_mem_countFrom hfirst hlast lineLimit
      (pattern_le_of_isFinite hfirst) (le_refl _) index hindex, rfl⟩

theorem one_le_of_toWord {v : Float} (hfinite : v.isFinite = true) (h : toWord v ≠ 0) :
    1 ≤ |value v| := by
  have hwhole : 0 < wholePart v := by
    refine Nat.pos_of_ne_zero (fun hzero => h ?_)
    rw [toWord, isNaN_of_isFinite hfinite, hfinite, truncate, hzero]
    cases negative v <;> rfl
  have hunit := double.unitDenominator_pos
  have hcast : (1 : ℚ) ≤ wholePart v := by exact_mod_cast hwhole
  rw [abs_value_eq]
  exact le_add_of_le_of_nonneg hcast (div_nonneg (Nat.cast_nonneg _) (le_of_lt hunit))

/-! ### Labelled lines -/

/-- The value of a line with a label is a number other than zero. -/
theorem labelled_of_mem_lines {lower upper step : Float} {place : Float → Float} {line : Line}
    (hstep : step.isFinite = true) (hpos : 0 < value step)
    (h : line ∈ lines lower upper step place) (hlabel : line.label.isSome = true) :
    line.label = some (label line.value) ∧ line.value.isNaN = false ∧ 0 < pattern line.value := by
  obtain ⟨mark, hmark, rfl⟩ := List.mem_map.mp h
  obtain ⟨index, hindex, rfl⟩ := exists_index_of_mem_marks hmark
  dsimp only at hlabel ⊢
  split at hlabel
  · contradiction
  next hword =>
  have hproduct := rounds_mul hindex hstep
  have hone := one_le_of_toWord hindex hword
  have hfar : |value step| ≤ |value index * value step| := by
    rw [abs_mul]
    exact le_mul_of_one_le_left (abs_nonneg _) hone
  have hpattern := (rounds_value (pattern_le_of_isFinite hstep)).pattern_mono hproduct hfar
  have hsteppos : 0 < pattern step :=
    Nat.pos_of_ne_zero (fun hzero => ne_of_gt hpos (value_eq_zero.mpr hzero))
  refine ⟨if_neg hword, ?_, Nat.lt_of_lt_of_le hsteppos hpattern⟩
  rw [isNaN_eq]
  exact decide_eq_false (Nat.not_lt_of_ge hproduct.pattern_le)

/-- Two labelled lines have one label exactly where they have one value or rounding merges
their values. -/
def Told (lines : List Line) : Prop :=
  ∀ line ∈ lines, ∀ other ∈ lines, line.label.isSome = true → other.label.isSome = true →
    (line.label = other.label ↔ line.value = other.value ∨ Merged line.value other.value)

/-- No two labelled lines of different values have one label. -/
def Identified (lines : List Line) : Prop :=
  ∀ line ∈ lines, ∀ other ∈ lines, line.label.isSome = true → line.label = other.label →
    line.value = other.value

theorem told_lines {step : Float} (hstep : step.isFinite = true) (hpos : 0 < value step)
    (lower upper : Float) (place : Float → Float) : Told (lines lower upper step place) := by
  intro line hline other hother hlabel hlabel'
  obtain ⟨heq, hnumber, hnonzero⟩ := labelled_of_mem_lines hstep hpos hline hlabel
  obtain ⟨heq', hnumber', hnonzero'⟩ := labelled_of_mem_lines hstep hpos hother hlabel'
  rw [heq, heq', Option.some.injEq]
  exact label_eq_iff hnumber hnonzero hnumber' hnonzero'

/-! ### Axes on which rounding merges no lines -/

/-- The larger distance of the two bounds from zero. -/
def farthest (lower upper : Float) : ℚ :=
  max |value lower| |value upper|

/-- Logarithm and power are accurate for the extent between two bounds; it is at least one
eightieth, and zero is at most nine extents and at most a thousand away. -/
structure Legible (lower upper : Float) : Prop where
  accurate : Accurate (upper - lower)
  wide : 1 / 80 ≤ value upper - value lower
  near : farthest lower upper ≤ 9 * (value upper - value lower)
  small : farthest lower upper ≤ 1000

/-- The number is the double nearest to a multiple of the step that is not far beyond the
bounds. -/
structure Multiple (lower upper step v : Float) (k : ℤ) : Prop where
  ne_zero : k ≠ 0
  exists_index : ∃ index, Index index k ∧ v = index * step
  near : |value v - k * value step| ≤ value step / 10 ^ 6
  le_farthest : |k * value step| ≤ farthest lower upper + value step / 4

section Axis
variable {lower upper step : Float} (hpos : 0 < value step)

section Lines
variable (hlower : lower.isFinite = true) (hupper : upper.isFinite = true)
  (hstep : step.isFinite = true) (hfew : farthest lower upper ≤ 94 * value step)
  (hsmall : farthest lower upper ≤ 1000)
include hpos hlower hupper hstep hfew hsmall

theorem exists_multiple {place : Float → Float} {line : Line}
    (h : line ∈ lines lower upper step place) (hlabel : line.label.isSome = true) :
    ∃ k, Multiple lower upper step line.value k := by
  have hreach : InReach lower step ∧ InReach upper step := by
    have hmax := max_le_iff.mp hfew
    constructor <;> rw [InReach] <;> linarith [hmax.1, hmax.2]
  obtain ⟨a, b, list, hmarked⟩ :=
    exists_markedBy hlower hupper hstep hpos hreach.1 hreach.2
  obtain ⟨mark, hmark, rfl⟩ := List.mem_map.mp h
  rw [hmarked.marks_eq] at hmark
  obtain ⟨index, hindex, rfl⟩ := List.mem_map.mp hmark
  obtain ⟨k, hak, hkb, hk⟩ := hmarked.counted.index index hindex
  dsimp only at hlabel ⊢
  split at hlabel
  · contradiction
  next hword =>
  have hone := one_le_of_toWord hk.isFinite hword
  rw [hk.value_eq] at hone
  have hne : k ≠ 0 := by
    rintro rfl
    norm_num at hone
  have hle : |k * value step| ≤ farthest lower upper + value step / 4 := by
    have hfirst : (a : ℚ) * value step ≤ k * value step :=
      mul_le_mul_of_nonneg_right (by exact_mod_cast hak) (le_of_lt hpos)
    have hlast : (k : ℚ) * value step ≤ b * value step :=
      mul_le_mul_of_nonneg_right (by exact_mod_cast hkb) (le_of_lt hpos)
    have hfrom := (abs_le.mp (le_max_left |value lower| |value upper|)).1
    have hto := (abs_le.mp (le_max_right |value lower| |value upper|)).2
    rw [farthest]
    exact abs_le.mpr ⟨by linarith [hmarked.lower_le], by linarith [hmarked.le_upper]⟩
  have hsteple : value step ≤ |k * value step| := by
    rw [abs_mul, abs_of_pos hpos]
    exact le_mul_of_one_le_left (le_of_lt hpos) hone
  have hproduct := rounds_mul hk.isFinite hstep
  rw [hk.value_eq] at hproduct
  have hfinite := (Rounds.of_small (by linarith) hproduct).1
  have herror := abs_index_mul_sub_le hk hstep hfinite
  exact ⟨k, hne, ⟨index, hk, rfl⟩, by linarith, hle⟩

end Lines

variable {v w : Float} {k l : ℤ}

theorem Multiple.eq (h : Multiple lower upper step v k) (h' : Multiple lower upper step w k) :
    v = w := by
  obtain ⟨index, hindex, rfl⟩ := h.exists_index
  obtain ⟨index', hindex', rfl⟩ := h'.exists_index
  have hne : value index' ≠ 0 := by
    rw [hindex'.value_eq]
    exact_mod_cast h.ne_zero
  rw [eq_of_value hne (hindex.value_eq.trans hindex'.value_eq.symm)]

theorem Multiple.abs_value_le (h : Multiple lower upper step v k) :
    |value v| ≤ farthest lower upper + value step / 4 + value step / 10 ^ 6 := by
  have htriangle := abs_sub_abs_le_abs_sub (value v) (k * value step)
  linarith [h.near, h.le_farthest]

include hpos

theorem Multiple.step_le_abs_sub (h : Multiple lower upper step v k)
    (h' : Multiple lower upper step w l) (hkl : k ≠ l) :
    (1 - 2 / 10 ^ 6) * value step ≤ |value v - value w| := by
  have hapart : (1 : ℚ) ≤ |(k - l : ℤ)| := by
    exact_mod_cast Int.one_le_abs (sub_ne_zero.mpr hkl)
  have hgap : value step ≤ |k * value step - l * value step| := by
    rw [← sub_mul, abs_mul, abs_of_pos hpos]
    push_cast at hapart
    exact le_mul_of_one_le_left (le_of_lt hpos) hapart
  have htriangle : |k * value step - l * value step| ≤
      |value v - k * value step| + |value v - value w| + |value w - l * value step| :=
    calc |k * value step - l * value step|
        ≤ |k * value step - value v| + |value v - l * value step| := abs_sub_le _ _ _
      _ ≤ |k * value step - value v| + (|value v - value w| + |value w - l * value step|) :=
        add_le_add_right (abs_sub_le _ _ _) _
      _ = _ := by rw [abs_sub_comm _ (value v), add_assoc]
  linarith [h.near, h'.near]

/-- Two multiples are farther apart than the numbers that rounding merges. -/
theorem Multiple.not_merged (hwide : 1 / 80 ≤ 10.42 * value step)
    (hfew : farthest lower upper ≤ 94 * value step) (hsmall : farthest lower upper ≤ 1000)
    (h : Multiple lower upper step v k) (h' : Multiple lower upper step w l) (hkl : k ≠ l)
    (hv : 0 < pattern v) (hw : 0 < pattern w) : ¬ Merged v w := by
  intro hmerged
  have hgap := h.step_le_abs_sub hpos h' hkl
  have hle := h.abs_value_le
  have hle' := h'.abs_value_le
  rcases hmerged.near hv hw with ⟨hlarge, hlarge'⟩ | hnear | hnear
  -- both are beyond a thousand, where the bounds leave room for a quarter of a step
  · have hnear : |value v - value w| ≤ value step / 4 + value step / 10 ^ 6 := by
      rw [abs_sub_of_negative_eq hmerged.negative_eq]
      exact abs_le.mpr ⟨by linarith, by linarith⟩
    linarith
  · linarith
  · linarith

end Axis

theorem identified_lines {lower upper : Float} (hlower : lower.isFinite = true)
    (hupper : upper.isFinite = true) (hless : lower < upper) (hlegible : Legible lower upper)
    (place : Float → Float) :
    Identified (lines lower upper (usedStep (upper - lower)) place) := by
  have hwidth : |value upper - value lower| ≤ 2 ^ 52 := by
    have hmax := max_le_iff.mp hlegible.small
    have hfrom := abs_le.mp hmax.1
    have hto := abs_le.mp hmax.2
    exact abs_le.mpr ⟨by linarith, by linarith⟩
  have hfinite := (Rounds.of_small hwidth (rounds_sub hupper hlower)).1
  obtain ⟨hextent, hextentle⟩ := extent_bounds hlower hupper hless hfinite
  obtain ⟨hstep, hpos⟩ := usedStep_pos (upper - lower)
  have hbound := le_usedStep hfinite hextent hlegible.accurate
  have hwide := hlegible.wide
  have hnear := hlegible.near
  have hfew : farthest lower upper ≤ 94 * value (usedStep (upper - lower)) := by linarith
  intro line hline other hother hlabel heq
  have hlabel' : other.label.isSome = true := heq ▸ hlabel
  obtain ⟨-, -, hnonzero⟩ := labelled_of_mem_lines hstep hpos hline hlabel
  obtain ⟨-, -, hnonzero'⟩ := labelled_of_mem_lines hstep hpos hother hlabel'
  obtain ⟨k, hk⟩ := exists_multiple hpos hlower hupper hstep hfew hlegible.small hline hlabel
  obtain ⟨l, hl⟩ := exists_multiple hpos hlower hupper hstep hfew hlegible.small hother hlabel'
  by_cases hkl : k = l
  · subst hkl
    exact hk.eq hl
  · have htold := (told_lines hstep hpos lower upper place line hline other hother hlabel
      hlabel').mp heq
    exact htold.resolve_right (hk.not_merged hpos (by linarith) hfew hlegible.small hl hkl
      hnonzero hnonzero')

/-! ### The labels of a grid -/

/-- On both axes a label tells its line from all lines whose values are not merged with that
line's by rounding, and on a legible axis from all others. -/
theorem plan_labels {view : Viewport} (hvalid : view.Valid) (width height : Float) :
    (Told (plan view width height).vertical ∧
        (Legible view.xMin view.xMax → Identified (plan view width height).vertical)) ∧
      Told (plan view width height).horizontal ∧
        (Legible view.yMin view.yMax → Identified (plan view width height).horizontal) := by
  obtain ⟨⟨hxMin, hxMax, hyMin, hyMax⟩, hx, hy⟩ := hvalid
  obtain ⟨hstepX, hposX⟩ := usedStep_pos view.extentX
  obtain ⟨hstepY, hposY⟩ := usedStep_pos view.extentY
  rw [plan_vertical, plan_horizontal]
  exact ⟨⟨told_lines hstepX hposX _ _ _,
      fun hlegible => identified_lines hxMin hxMax hx hlegible _⟩,
    told_lines hstepY hposY _ _ _, fun hlegible => identified_lines hyMin hyMax hy hlegible _⟩

/-- Ten units from `1000` on from left to right, and ten units around zero from bottom to
top. -/
def faraway : Viewport :=
  ⟨1000.0, 1010.0, -10.0, 10.0⟩

theorem value_ten : value (-10.0) = -10 ∧ value 10.0 = 10 := by
  have hten : value 10.0 = (10 : ℕ) := value_of_units (by decide +kernel) (by decide +kernel)
  have hneg : (-10.0 : Float) = -(10.0 : Float) := rfl
  rw [hneg, value_neg (by decide +kernel), hten]
  exact ⟨rfl, rfl⟩

theorem legible_ten : Legible (-10.0) 10.0 where
  accurate := accurate_of_table (by decide +kernel) (by decide +kernel) (by decide +kernel)
  wide := by
    rw [value_ten.1, value_ten.2]
    norm_num
  near := by
    rw [farthest, value_ten.1, value_ten.2]
    norm_num
  small := by
    rw [farthest, value_ten.1, value_ten.2]
    norm_num

theorem plan_labels_faraway : Told (plan faraway 64.0 64.0).vertical ∧
    Identified (plan faraway 64.0 64.0).horizontal := by
  have hlabels := plan_labels (by decide +kernel : faraway.Valid) 64.0 64.0
  exact ⟨hlabels.1.1, hlabels.2.2 legible_ten⟩

/-- From left to right that window has lines of different values with one label. -/
theorem not_identified_faraway : faraway.Valid ∧
    ¬ Identified (plan faraway 64.0 64.0).vertical := by
  have hsame : ∃ line ∈ (plan faraway 64.0 64.0).vertical,
      ∃ other ∈ (plan faraway 64.0 64.0).vertical,
        line.label.isSome = true ∧ line.label = other.label ∧ line.value ≠ other.value := by
    decide +kernel
  obtain ⟨line, hline, other, hother, hlabel, heq, hne⟩ := hsame
  exact ⟨by decide +kernel,
    fun hidentified => hne (hidentified line hline other hother hlabel heq)⟩

end GraphCalc.Grid
