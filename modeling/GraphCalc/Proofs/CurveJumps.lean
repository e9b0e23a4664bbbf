/-
The rows of a curve.  Two samples that follow each other on a segment are not further
apart than the height of the surface, if their rows are finite.  A finite value may have
a row that is not, where the change of scale overflows; the comparison that looks for
jumps then joins an infinity to itself, and NaN to anything.
-/
import GraphCalc.Proofs.CurveSegments
import GraphCalc.Proofs.DoubleDistances
namespace GraphCalc.Curve

/-- A segment that never jumps: its points are finite, and two that follow each other
are not further apart than the height of the surface. -/
structure Steady (height : ℕ) (segment : List Sample) : Prop where
  finite : ∀ sample ∈ segment,
    (Float.ofNat sample.column).isFinite = true ∧ sample.row.isFinite = true
  close : ∀ left right, [left, right] <:+: segment →
    (right.row - left.row).abs ≤ Float.ofNat height

/-- The rows of two samples that are not taken for a jump. -/
def NoJump (height : ℕ) (left right : Sample) : Prop :=
  (left.row.isFinite = true ∧ right.row.isFinite = true ∧
      (right.row - left.row).abs ≤ Float.ofNat height) ∨
    (left.row.isNaN = true ∨ right.row.isNaN = true) ∨
    left.row.isInf = true ∧ right.row = left.row

theorem ofNat_bounds {n : ℕ} (h : n < 2 ^ 32) :
    Double.negative (Float.ofNat n) = false ∧ (Float.ofNat n).isFinite = true :=
  Double.ofNat_bounds (Nat.lt_of_lt_of_le h (by decide))

/-- Two samples are joined where their columns are neighbours and their rows are no jump. -/
theorem joined_iff_noJump {height : ℕ} (h : height < 2 ^ 32) {left right : Sample} :
    Joined height left right ↔ right.column = left.column + 1 ∧ NoJump height left right := by
  obtain ⟨hsign, hfinite⟩ := ofNat_bounds h
  rw [Joined, Double.not_lt_abs_sub_iff hfinite hsign, NoJump]

/-- Finite rows that are no jump are within the height of the surface. -/
theorem NoJump.close {height : ℕ} {left right : Sample} (h : NoJump height left right)
    (hleft : left.row.isFinite = true) (hright : right.row.isFinite = true) :
    (right.row - left.row).abs ≤ Float.ofNat height := by
  rcases h with ⟨-, -, hclose⟩ | (hnan | hnan) | ⟨hinfinite, -⟩
  · exact hclose
  · exact absurd hnan (Bool.eq_false_iff.mp (Double.isNaN_of_isFinite hleft))
  · exact absurd hnan (Bool.eq_false_iff.mp (Double.isNaN_of_isFinite hright))
  · exact absurd hinfinite (Bool.eq_false_iff.mp (Double.isInf_of_isFinite hleft))

section Curve
variable {expr : Expr} {view : Viewport} {width height : ℕ}

theorem mem_samples_iff {columns : ℕ} {sample : Sample} :
    sample ∈ samples expr view width height columns ↔
      ∃ column < columns, sample ∈ sample? expr view width height column := by
  rw [samples_eq]
  simp [Option.mem_def]

theorem flatten_segments (hwidth : 0 < width) (hheight : 0 < height) :
    (segments expr view width height).flatten = samples expr view width height (width + 1) := by
  have hdraws := (stands_trace expr view width height (width + 1)).draws.lift
  rw [segments, if_neg (by omega), ← hdraws.flatten, Pen.line_lift, List.reverse_nil,
    List.append_nil]

/-- Two samples that follow each other on a segment were joined. -/
theorem joined_of_mem_segments {segment : List Sample}
    (hsegment : segment ∈ segments expr view width height) {left right : Sample}
    (hpair : [left, right] <:+: segment) : Joined height left right := by
  have hdraws := (stands_trace expr view width height (width + 1)).draws.lift
  by_cases hempty : width = 0 ∨ height = 0
  · rw [segments, if_pos hempty] at hsegment
    contradiction
  rw [not_or] at hempty
  have hread : [left, right] <:+: samples expr view width height (width + 1) := by
    rw [← flatten_segments (Nat.pos_of_ne_zero hempty.1) (Nat.pos_of_ne_zero hempty.2)]
    exact hpair.trans (List.infix_of_mem_flatten hsegment)
  rw [segments, if_neg (not_or_intro hempty.1 hempty.2), List.mem_reverse] at hsegment
  apply (hdraws.shares left right hread).mp
  exact ⟨segment, List.mem_cons_of_mem _ hsegment, hpair.subset (by simp), hpair.subset (by simp)⟩

theorem mem_segments_iff (hwidth : 0 < width) (hheight : 0 < height) {sample : Sample} :
    (∃ segment ∈ segments expr view width height, sample ∈ segment) ↔
      ∃ column ≤ width, sample ∈ sample? expr view width height column := by
  rw [← List.mem_flatten, flatten_segments hwidth hheight, mem_samples_iff]
  simp only [Nat.lt_succ_iff]

/-- Every sample has a finite row exactly where every finite value has one. -/
theorem finite_rows_iff (hwidth : 0 < width) (hheight : 0 < height) :
    (∀ segment ∈ segments expr view width height, ∀ sample ∈ segment,
        sample.row.isFinite = true) ↔
      ∀ column ≤ width,
        let y := expr.eval .radians (view.ofColumn (Float.ofNat width) (Float.ofNat column))
        y.isFinite = true → (view.toRow (Float.ofNat height) y).isFinite = true := by
  constructor
  · intro hfinite column hcolumn y hy
    have hsample : (⟨column, view.toRow (Float.ofNat height) y⟩ : Sample) ∈
        sample? expr view width height column := if_pos hy
    obtain ⟨segment, hsegment, hmem⟩ :=
      (mem_segments_iff hwidth hheight).mpr ⟨column, hcolumn, hsample⟩
    exact hfinite segment hsegment ⟨column, view.toRow (Float.ofNat height) y⟩ hmem
  · intro hfinite segment hsegment sample hmem
    obtain ⟨column, hcolumn, hsample⟩ :=
      (mem_segments_iff hwidth hheight).mp ⟨segment, hsegment, hmem⟩
    simp only [sample?, Option.mem_def] at hsample
    split at hsample
    · next hy =>
      rw [← Option.some.inj hsample]
      exact hfinite column hcolumn hy
    · contradiction

/-- Whatever the rows are, two points that follow each other on a segment do not jump. -/
theorem noJump_of_mem_segments (hrows : height < 2 ^ 32) {segment : List Sample}
    (hsegment : segment ∈ segments expr view width height) {left right : Sample}
    (hpair : [left, right] <:+: segment) : NoJump height left right :=
  ((joined_iff_noJump hrows).mp (joined_of_mem_segments hsegment hpair)).2

/-- Only a row that is not finite can make a segment unsteady. -/
theorem steady_iff (hwidth : 0 < width) (hheight : 0 < height) (hcolumns : width < 2 ^ 32)
    (hrows : height < 2 ^ 32) {segment : List Sample}
    (hsegment : segment ∈ segments expr view width height) :
    Steady height segment ↔ ∀ sample ∈ segment, sample.row.isFinite = true := by
  constructor
  · intro hsteady sample hmem
    exact (hsteady.finite sample hmem).2
  · intro hfinite
    constructor
    · intro sample hmem
      obtain ⟨column, hcolumn, hsample⟩ :=
        (mem_segments_iff hwidth hheight).mp ⟨segment, hsegment, hmem⟩
      rw [column_of_mem_sample? expr view width height hsample]
      exact ⟨(ofNat_bounds (Nat.lt_of_le_of_lt hcolumn hcolumns)).2, hfinite sample hmem⟩
    · intro left right hpair
      apply (noJump_of_mem_segments hrows hsegment hpair).close
      · exact hfinite left (hpair.subset (by simp))
      · exact hfinite right (hpair.subset (by simp))

/-- The segments are steady exactly where every finite value has a finite row.  In any
case two points that follow each other on a segment are both finite and not further apart
than the height of the surface, or one of them is NaN, or they are the same infinity. -/
theorem segments_steady_iff (hwidth : 0 < width) (hheight : 0 < height)
    (hcolumns : width < 2 ^ 32) (hrows : height < 2 ^ 32) :
    ((∀ segment ∈ segments expr view width height, Steady height segment) ↔
        ∀ column ≤ width,
          let y := expr.eval .radians (view.ofColumn (Float.ofNat width) (Float.ofNat column))
          y.isFinite = true → (view.toRow (Float.ofNat height) y).isFinite = true) ∧
      ∀ segment ∈ segments expr view width height, ∀ left right,
        [left, right] <:+: segment → NoJump height left right := by
  constructor
  · rw [← finite_rows_iff hwidth hheight]
    apply forall₂_congr
    intro segment hsegment
    exact steady_iff hwidth hheight hcolumns hrows hsegment
  · intro segment hsegment left right hpair
    exact noJump_of_mem_segments hrows hsegment hpair

end Curve

/-- The samples of the hyperbola have finite rows, so its two segments never jump. -/
theorem segments_steady_iff_hyperbola :
    0 < 4 ∧ 0 < 3 ∧ 4 < 2 ^ 32 ∧ 3 < 2 ^ 32 ∧
      ∀ segment ∈ segments (.binary .div (.number 1.0) .var) .standard 4 3, Steady 3 segment := by
  refine ⟨by decide, by decide, by decide, by decide, ?_⟩
  apply (segments_steady_iff (by decide) (by decide) (by decide) (by decide)).1.mpr
  decide +kernel

/-- A constant close to the greatest double is finite and its row is not: the two columns
are drawn, and joined, in a row at infinity. -/
theorem segments_not_steady_constant :
    compile "1e308".toList = .ok (.number 1e308) ∧ Viewport.standard.Valid ∧
      (segments (.number 1e308) .standard 1 100).map (List.map (·.row.isInf)) = [[true, true]] ∧
      ¬ ∀ segment ∈ segments (.number 1e308) .standard 1 100, Steady 100 segment := by
  refine ⟨by decide +kernel, Viewport.standard_valid, by decide +kernel, fun hsteady => ?_⟩
  have hnone : ∀ segment ∈ segments (.number 1e308) .standard 1 100,
      segment.any (·.row.isInf) = false := by
    intro segment hsegment
    rw [List.any_eq_false]
    intro sample hsample
    rw [Double.isInf_of_isFinite ((hsteady segment hsegment).finite sample hsample).2]
    exact Bool.false_ne_true
  exact absurd hnone (by decide +kernel)

end GraphCalc.Curve
