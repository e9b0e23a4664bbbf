/-
The marks of an axis.  Where the bounds are at most `2 ^ 52` steps from zero the count from
the first mark to the last is exact and the rounded multiples ascend.
-/
import GraphCalc.Grid
import GraphCalc.Proofs.WholeDoubles
namespace GraphCalc.Grid

open Double

/-! ### Counting -/

/-- Ascending whole numbers between two bounds, none of them missing room. -/
structure Counted (first last : ℤ) (list : List Float) : Prop where
  index : ∀ v ∈ list, ∃ k, first ≤ k ∧ k ≤ last ∧ Index v k
  ascending : list.Pairwise (fun v w => value v < value w)
  length_le : list.length ≤ (last + 1 - first).toNat

theorem counted_countFrom {last : Float} {b : ℤ} (hlast : Index last b) (hb : b ≤ 2 ^ 52)
    (count : ℕ) {index : Float} {a : ℤ} (hindex : Index index a) (ha : -2 ^ 52 ≤ a) :
    Counted a b (countFrom count index last) := by
  induction count generalizing index a with
  | zero => exact ⟨by simp [countFrom], List.Pairwise.nil, Nat.zero_le _⟩
  | succ count ih =>
      rw [countFrom]
      split
      · next hle =>
          have hab := (hindex.le_iff hlast).mp hle
          have hrest := ih (hindex.add_one (by omega)) (by omega)
          refine ⟨?_, List.Pairwise.cons ?_ hrest.ascending, ?_⟩
          · intro v hv
            rcases List.mem_cons.mp hv with rfl | hv
            · exact ⟨a, le_refl a, hab, hindex⟩
            · obtain ⟨k, hk, hkb, hvk⟩ := hrest.index v hv
              exact ⟨k, by omega, hkb, hvk⟩
          · intro v hv
            obtain ⟨k, hk, -, hvk⟩ := hrest.index v hv
            rw [hindex.value_eq, hvk.value_eq, Int.cast_lt]
            omega
          · have hlength := hrest.length_le
            rw [List.length_cons]
            omega
      · exact ⟨by simp, List.Pairwise.nil, Nat.zero_le _⟩

/-! ### Multiples of the step -/

section Multiples
variable {lower upper step : Float} (hlower : lower.isFinite = true)
  (hupper : upper.isFinite = true) (hstep : step.isFinite = true)

/-- Multiples of a double are rounded only where they have too many bits. -/
theorem abs_index_mul_sub_le {v : Float} {k : ℤ} (hv : Index v k) (hstep : step.isFinite = true)
    (hfinite : (v * step).isFinite = true) :
    |value (v * step) - k * value step| ≤ |k * value step| / 2 ^ 53 := by
  have hproduct := rounds_mul hv.isFinite hstep
  rw [hv.value_eq] at hproduct
  refine hproduct.abs_sub_le_of_units hfinite (n := k.natAbs * units step) ?_
  rw [abs_mul, mul_assoc, ← units_eq_abs_value, Nat.cast_mul, Nat.cast_natAbs, Int.cast_abs]

include hlower hupper hstep in
/-- Multiples between the bounds that are not the same are not rounded to one double. -/
theorem value_mul_lt {v w : Float} {k l : ℤ} (hv : Index v k) (hw : Index w l) (hkl : k < l)
    (hk : -2 ^ 52 ≤ k) (hl : l ≤ 2 ^ 52) (hpos : 0 < value step)
    (hkupper : k * value step ≤ value upper) (hllower : value lower ≤ l * value step) :
    value (v * step) < value (w * step) := by
  have hproduct := rounds_mul hv.isFinite hstep
  have hproduct' := rounds_mul hw.isFinite hstep
  have hvfinite := abs_index_mul_sub_le hv hstep
  have hwfinite := abs_index_mul_sub_le hw hstep
  rw [hv.value_eq] at hproduct
  rw [hw.value_eq] at hproduct'
  have hcast : (k : ℚ) + 1 ≤ l := by exact_mod_cast hkl
  refine lt_of_le_of_ne (hproduct.mono hproduct' (by nlinarith)) (fun heq => ?_)
  have habove := hproduct'.le_value (pattern_le_of_isFinite hlower) hllower
  have hbelow := hproduct.value_le (pattern_le_of_isFinite hupper) hkupper
  have herror := (abs_le.mp (hvfinite
    (isFinite_of_between hlower hupper (habove.trans (ge_of_eq heq)) hbelow))).2
  have herror' := (abs_le.mp (hwfinite
    (isFinite_of_between hlower hupper habove ((ge_of_eq heq).trans hbelow)))).1
  have hgap : (l - k : ℚ) * value step ≤ (|k| + |l| : ℤ) / 2 ^ 53 * value step := by
    rw [abs_mul, abs_of_pos hpos] at herror herror'
    push_cast
    linarith
  have hbits : (l - k) * 2 ^ 53 ≤ |k| + |l| := by
    have hquotient := le_of_mul_le_mul_right hgap hpos
    rw [le_div_iff₀ (by norm_num)] at hquotient
    exact_mod_cast hquotient
  rw [Int.abs_eq_natAbs, Int.abs_eq_natAbs] at hbits
  omega

end Multiples

/-! ### The marks between two bounds -/

/-- A quotient that is rounded up to a whole number is a quarter below it at most: halves
are doubles, and the one below would be nearer. -/
theorem sub_quarter_le {x : ℚ} {v : Float} {k : ℤ} (hx : |x| ≤ 2 ^ 52) (hv : Rounds x v)
    (hk : k ≤ value v) : k - 1 / 4 ≤ x := by
  by_contra hless
  rw [not_le] at hless
  obtain ⟨hlower, hupper⟩ := abs_le.mp hx
  have hkle : k ≤ 2 ^ 52 := by exact_mod_cast hk.trans (abs_le.mp (hv.of_small hx).2).2
  have hkge : -2 ^ 52 < k := by
    have hcast : (-2 ^ 52 : ℚ) < k := by linarith
    exact_mod_cast hcast
  obtain ⟨w, hw, hvalue⟩ := exists_value (2 * k - 1) (-1) (by omega) (by omega) (by omega)
  have hhalf : value w = k - 1 / 2 := by
    rw [hvalue]
    push_cast
    ring
  have hnear := hv.abs_sub_le_abs_sub (pattern_le_of_isFinite hw)
  rw [hhalf, abs_of_pos (by linarith : 0 < value v - x)] at hnear
  rcases abs_cases ((k : ℚ) - 1 / 2 - x) with ⟨heq, -⟩ | ⟨heq, -⟩ <;> linarith

theorem le_add_quarter {x : ℚ} {v : Float} {k : ℤ} (hx : |x| ≤ 2 ^ 52) (hv : Rounds x v)
    (hk : value v ≤ k) : x ≤ k + 1 / 4 := by
  have hneg := sub_quarter_le (k := -k) ((abs_neg x).trans_le hx) hv.neg (by
    rw [value_neg hv.pattern_le, Int.cast_neg]
    exact neg_le_neg hk)
  rw [Int.cast_neg] at hneg
  linarith

/-- At this distance from zero, counted in steps, whole numbers and halves are doubles. -/
def InReach (bound step : Float) : Prop :=
  |value bound| ≤ 2 ^ 52 * value step

theorem marks_cases (lower upper step : Float) : marks lower upper step = [] ∨
    (floor (upper / step) - ceil (lower / step)).isFinite = true ∧ marks lower upper step =
      (countFrom lineLimit (ceil (lower / step)) (floor (upper / step))).map
        (fun index => ⟨toWord index, index * step⟩) := by
  simp only [marks]
  split
  · exact Or.inl rfl
  split
  · exact Or.inl rfl
  · next hfinite =>
      rw [Bool.or_eq_true, not_or, Bool.not_eq_true', Bool.not_eq_false] at hfinite
      exact Or.inr ⟨hfinite.1, rfl⟩

/-- The marks are at the whole numbers of a list, which are within a quarter of a step of
the bounds. -/
structure MarkedBy (lower upper step : Float) (a b : ℤ) (list : List Float) : Prop where
  counted : Counted a b list
  marks_eq : marks lower upper step = list.map (fun index => ⟨toWord index, index * step⟩)
  first_ge : -2 ^ 52 ≤ a
  last_le : b ≤ 2 ^ 52
  lower_le : value lower ≤ (a + 1 / 4) * value step
  le_upper : (b - 1 / 4) * value step ≤ value upper

section Marks
variable {lower upper step : Float} (hlower : lower.isFinite = true)
  (hupper : upper.isFinite = true) (hstep : step.isFinite = true) (hpos : 0 < value step)
  (hreach : InReach lower step) (hreach' : InReach upper step)
include hlower hupper hstep hpos hreach hreach'

theorem exists_markedBy : ∃ a b list, MarkedBy lower upper step a b list := by
  have hne := ne_of_gt hpos
  have hsmall : |value lower / value step| ≤ 2 ^ 52 := by
    rwa [abs_div, abs_of_pos hpos, div_le_iff₀ hpos]
  have hsmall' : |value upper / value step| ≤ 2 ^ 52 := by
    rwa [abs_div, abs_of_pos hpos, div_le_iff₀ hpos]
  have hquotient := rounds_div hlower hstep hne
  have hquotient' := rounds_div hupper hstep hne
  obtain ⟨hfinite, hbound⟩ := Rounds.of_small hsmall hquotient
  obtain ⟨hfinite', hbound'⟩ := Rounds.of_small hsmall' hquotient'
  obtain ⟨a, ha⟩ : ∃ a, a = ⌈value (lower / step)⌉ := ⟨_, rfl⟩
  obtain ⟨b, hb⟩ : ∃ b, b = ⌊value (upper / step)⌋ := ⟨_, rfl⟩
  have hfirst := index_ceil hfinite
  have hlast := index_floor hfinite'
  rw [← ha] at hfirst
  rw [← hb] at hlast
  have hstart : value (lower / step) ≤ a := ha ▸ Int.le_ceil _
  have hend : b ≤ value (upper / step) := hb ▸ Int.floor_le _
  have hage : -2 ^ 52 ≤ a := by exact_mod_cast (abs_le.mp hbound).1.trans hstart
  have hble : b ≤ 2 ^ 52 := by exact_mod_cast hend.trans (abs_le.mp hbound').2
  have hfrom := le_add_quarter hsmall hquotient hstart
  have hto := sub_quarter_le hsmall' hquotient' hend
  rw [div_le_iff₀ hpos] at hfrom
  rw [le_div_iff₀ hpos] at hto
  rcases marks_cases lower upper step with hnone | ⟨-, hmarks⟩
  · exact ⟨a, b, [], ⟨by simp, List.Pairwise.nil, Nat.zero_le _⟩, hnone, hage, hble, hfrom, hto⟩
  · exact ⟨a, b, _, counted_countFrom hlast hble lineLimit hfirst hage, hmarks, hage, hble,
      hfrom, hto⟩

/-- At most eleven multiples of the step lie between bounds that are ten and a half steps
apart, and they ascend. -/
theorem marks_ascending (hwidth : value upper - value lower < 21 / 2 * value step) :
    (marks lower upper step).length ≤ 11 ∧
      ((marks lower upper step).map Mark.value).Pairwise (· < ·) := by
  obtain ⟨a, b, list, hmarked⟩ := exists_markedBy hlower hupper hstep hpos hreach hreach'
  have hcounted := hmarked.counted
  have hfrom := hmarked.lower_le
  have hto := hmarked.le_upper
  have hage := hmarked.first_ge
  have hble := hmarked.last_le
  have hfew : b - a < 11 := by
    have hscaled : (b - a : ℚ) * value step < 11 * value step := by linarith
    exact_mod_cast lt_of_mul_lt_mul_right hscaled (le_of_lt hpos)
  rw [hmarked.marks_eq]
  refine ⟨?_, ?_⟩
  · have hlength := hcounted.length_le
    rw [List.length_map]
    omega
  · rw [List.map_map, List.pairwise_map]
    refine hcounted.ascending.imp_of_mem (fun {v w} hv hw hvw => ?_)
    obtain ⟨k, hak, hkb, hvk⟩ := hcounted.index v hv
    obtain ⟨l, hal, hlb, hwl⟩ := hcounted.index w hw
    rw [hvk.value_eq, hwl.value_eq, Int.cast_lt] at hvw
    have hklast : (k : ℚ) + 1 ≤ b := by exact_mod_cast (by omega : k + 1 ≤ b)
    have hlfirst : (a : ℚ) + 1 ≤ l := by exact_mod_cast (by omega : a + 1 ≤ l)
    refine (lt_iff_value (rounds_mul hvk.isFinite hstep).pattern_le
      (rounds_mul hwl.isFinite hstep).pattern_le).mpr ?_
    refine value_mul_lt hlower hupper hstep hvk hwl hvw (by omega) (by omega) hpos ?_ ?_
    · nlinarith
    · nlinarith

end Marks

end GraphCalc.Grid
