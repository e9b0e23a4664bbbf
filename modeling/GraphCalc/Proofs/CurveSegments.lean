/-
The segments of a curve.  Together they are its samples, none is empty, and two
samples that follow each other are on one segment exactly where their columns are
neighbours and the curve does not jump between them.
-/
import GraphCalc.Curve
import Mathlib.Data.List.Basic
namespace GraphCalc.Curve

/-- The samples of an expression: one for each column in which it is finite. -/
def samples (expr : Expr) (view : Viewport) (width height columns : ℕ) : List Sample :=
  (List.range columns).filterMap (fun column =>
    let y := expr.eval .radians (view.ofColumn (Float.ofNat width) (Float.ofNat column))
    if y.isFinite then some ⟨column, view.toRow (Float.ofNat height) y⟩ else none)

/-- Two samples belong together: their columns are neighbours and they are not further
apart than the height of the surface. -/
def Joined (height : ℕ) (left right : Sample) : Prop :=
  right.column = left.column + 1 ∧ ¬ Float.ofNat height < (right.row - left.row).abs

theorem joined_iff {height : ℕ} {left right : Sample} : Joined height left right ↔
    right.column = left.column + 1 ∧ jumps height left right = false := by
  simp [Joined, jumps]

/-- Two samples that follow each other in a longer list do so in the shorter one, or
are its last sample and the new one. -/
theorem pair_infix_concat_iff {read : List Sample} {left right sample : Sample} :
    [left, right] <:+: read ++ [sample] ↔
      (read.getLast? = some left ∧ right = sample) ∨ [left, right] <:+: read := by
  have hsuffix : [left, right] <:+ read ++ [sample] ↔
      read.getLast? = some left ∧ right = sample := by
    constructor
    · rintro ⟨front, heq⟩
      have hconcat : (front ++ [left]) ++ [right] = read ++ [sample] := by simpa using heq
      obtain ⟨hread, hright⟩ := List.append_inj' hconcat rfl
      exact ⟨by rw [← hread, List.getLast?_concat], List.singleton_inj.mp hright⟩
    · rintro ⟨hlast, rfl⟩
      obtain ⟨front, rfl⟩ := List.getLast?_eq_some_iff.mp hlast
      exact ⟨front, by simp⟩
  rw [List.infix_concat_iff, hsuffix]

namespace Pen

/-- Two samples are on one segment, complete or not. -/
def Shares (pen : Pen) (left right : Sample) : Prop :=
  ∃ segment ∈ pen.line :: pen.drawn, left ∈ segment ∧ right ∈ segment

/-- The pen has drawn the samples that were read. -/
structure Draws (height : ℕ) (pen : Pen) (read : List Sample) : Prop where
  flatten : pen.drawn.reverse.flatten ++ pen.line.reverse = read
  nonempty : [] ∉ pen.drawn
  shares : ∀ left right, [left, right] <:+: read →
    (pen.Shares left right ↔ Joined height left right)

variable {height : ℕ} {pen : Pen} {read : List Sample}

theorem line_lift (pen : Pen) : pen.lift.line = [] := by
  rw [lift]
  split
  · next hempty => exact hempty
  · rfl

theorem shares_lift (pen : Pen) (left right : Sample) :
    pen.lift.Shares left right ↔ pen.Shares left right := by
  rw [lift]
  split
  · rfl
  · simp [Shares]

/-- A lifted pen has drawn the same samples. -/
theorem Draws.lift (h : Draws height pen read) : Draws height pen.lift read where
  flatten := by
    rw [← h.flatten, Pen.lift]
    split
    · rfl
    · simp
  nonempty := by
    rw [Pen.lift]
    split
    · exact h.nonempty
    · next hline => simpa [hline] using h.nonempty
  shares := fun left right hpair => by
    rw [shares_lift]
    exact h.shares left right hpair

/-- One more sample on the line: it is there with the sample before it exactly where
the two belong together. -/
theorem Draws.push (h : Draws height pen read) {sample : Sample} (hnew : sample ∉ read)
    (hlast : ∀ left, read.getLast? = some left →
      (left ∈ pen.line ↔ Joined height left sample)) :
    Draws height { pen with line := sample :: pen.line } (read ++ [sample]) where
  flatten := by simp [← h.flatten]
  nonempty := h.nonempty
  shares := by
    have hdrawn : ∀ segment ∈ pen.drawn, sample ∉ segment := by
      intro segment hsegment hmem
      refine hnew (h.flatten ▸ List.mem_append_left _ ?_)
      exact List.mem_flatten.mpr ⟨segment, List.mem_reverse.mpr hsegment, hmem⟩
    intro left right hpair
    rcases pair_infix_concat_iff.mp hpair with ⟨hleft, rfl⟩ | hold
    · have hne : left ≠ right := fun heq => hnew (heq ▸ List.mem_of_getLast? hleft)
      rw [← hlast left hleft]
      constructor
      · rintro ⟨segment, hsegment, hleftmem, hrightmem⟩
        rcases List.mem_cons.mp hsegment with rfl | hcomplete
        · exact (List.mem_cons.mp hleftmem).resolve_left hne
        · exact absurd hrightmem (hdrawn segment hcomplete)
      · intro hmem
        exact ⟨_, List.mem_cons_self, List.mem_cons_of_mem _ hmem, List.mem_cons_self⟩
    · have hleft : left ≠ sample := fun heq => hnew (heq ▸ hold.subset (by simp))
      have hright : right ≠ sample := fun heq => hnew (heq ▸ hold.subset (by simp))
      rw [← h.shares left right hold]
      simp [Shares, hleft, hright]

/-! ### Column by column -/

/-- The pen stands behind a column: it has drawn the samples read so far, and it is on
the line just where that column has one. -/
structure Stands (height : ℕ) (pen : Pen) (read : List Sample) (column : ℕ) : Prop where
  draws : Draws height pen read
  column_lt : ∀ sample ∈ read, sample.column < column
  gap : pen.line = [] → ∀ sample ∈ read, sample.column + 1 < column
  last : ∀ sample ∈ pen.line.head?, sample.column + 1 = column

theorem stands_start (height : ℕ) : Stands height ⟨[], []⟩ [] 0 where
  draws := ⟨rfl, List.not_mem_nil, fun left right hpair => by simp at hpair⟩
  column_lt := List.forall_mem_nil _
  gap := fun _ => List.forall_mem_nil _
  last := fun sample hsample => by simp at hsample

variable {column : ℕ}

/-- A column without a sample. -/
theorem Stands.lift (h : Stands height pen read column) :
    Stands height pen.lift read (column + 1) where
  draws := h.draws.lift
  column_lt := fun sample hsample => Nat.lt_succ_of_lt (h.column_lt sample hsample)
  gap := fun _ sample hsample => Nat.succ_lt_succ (h.column_lt sample hsample)
  last := fun sample hsample => by simp [line_lift] at hsample

/-- The sample at the end of the line is the one that was read last. -/
theorem Draws.getLast?_read (h : Draws height pen read) {last : Sample} {rest : List Sample}
    (hline : pen.line = last :: rest) : read.getLast? = some last := by
  simp [← h.flatten, hline]

/-- A column with a sample. -/
theorem Stands.draw (h : Stands height pen read column) {sample : Sample}
    (hcolumn : sample.column = column) :
    Stands height (pen.draw height sample) (read ++ [sample]) (column + 1) := by
  have hnew : sample ∉ read := fun hmem => absurd (h.column_lt sample hmem) (by omega)
  have hdraws : Draws height (pen.draw height sample) (read ++ [sample]) := by
    rw [Pen.draw]
    split
    · next last rest hline =>
      have hcolumns : sample.column = last.column + 1 := by
        rw [hcolumn, h.last last (by simp [hline])]
      have hread := h.draws.getLast?_read hline
      split
      · next hjump =>
        refine h.draws.lift.push hnew (fun left hleft => ?_)
        rw [hread] at hleft
        simp [line_lift, joined_iff, ← Option.some.inj hleft, hjump]
      · next hjump =>
        refine h.draws.push hnew (fun left hleft => ?_)
        rw [hread] at hleft
        simp [hline, joined_iff, ← Option.some.inj hleft, hjump, hcolumns]
    · next hline =>
      refine h.draws.push hnew (fun left hleft => ?_)
      have hgap := h.gap hline left (List.mem_of_getLast? hleft)
      simp only [hline, List.not_mem_nil, joined_iff, false_iff, not_and]
      omega
  refine ⟨hdraws, ?_, ?_, ?_⟩
  · intro other hother
    rcases List.mem_append.mp hother with hmem | hmem
    · exact Nat.lt_succ_of_lt (h.column_lt other hmem)
    · rw [List.mem_singleton.mp hmem, hcolumn]
      exact Nat.lt_succ_self _
  · intro hline
    exact absurd hline (List.cons_ne_nil _ _)
  · intro other hother
    rw [← hcolumn, ← Option.some.inj (show some sample = some other from hother)]

theorem Stands.step (h : Stands height pen read column) {sample : Option Sample}
    (hcolumn : ∀ s ∈ sample, s.column = column) :
    Stands height (pen.step height sample) (read ++ sample.toList) (column + 1) := by
  cases sample with
  | none =>
      rw [Option.toList_none, List.append_nil]
      exact h.lift
  | some sample => exact h.draw (hcolumn sample rfl)

end Pen

/-! ### The whole curve -/

section Curve
variable (expr : Expr) (view : Viewport) (width height : ℕ)

theorem column_of_mem_sample? {column : ℕ} {sample : Sample}
    (h : sample ∈ sample? expr view width height column) : sample.column = column := by
  simp only [sample?, Option.mem_def] at h
  split at h
  · rw [← Option.some.inj h]
  · contradiction

theorem samples_eq (columns : ℕ) : samples expr view width height columns =
    (List.range columns).filterMap (sample? expr view width height) :=
  rfl

/-- Behind any number of columns the pen has drawn their samples. -/
theorem stands_trace (columns : ℕ) : (trace expr view width height columns).Stands height
    (samples expr view width height columns) columns := by
  induction columns with
  | zero => exact Pen.stands_start height
  | succ columns ih =>
      have hstep := ih.step (fun _ => column_of_mem_sample? expr view width height)
      have htrace : trace expr view width height (columns + 1) =
          (trace expr view width height columns).step height
            (sample? expr view width height columns) := by
        rw [trace, List.range_succ, List.foldl_concat]
        rfl
      have hsamples : samples expr view width height (columns + 1) =
          samples expr view width height columns ++
            (sample? expr view width height columns).toList := by
        rw [samples_eq, samples_eq, List.range_succ, List.filterMap_append, List.filterMap_cons,
          List.filterMap_nil]
        cases sample? expr view width height columns <;> rfl
      rwa [htrace, hsamples]

/-- Nothing is drawn without columns or rows.  Otherwise the segments put together are
the samples of the columns up to the width, no segment is empty, and of the samples
two that follow each other are on one segment exactly where they belong together. -/
theorem segments_cut_samples :
    (width = 0 ∨ height = 0 → segments expr view width height = []) ∧
      (0 < width → 0 < height →
        (segments expr view width height).flatten =
            samples expr view width height (width + 1) ∧
          [] ∉ segments expr view width height ∧
          ∀ left right, [left, right] <:+: samples expr view width height (width + 1) →
            ((∃ segment ∈ segments expr view width height, left ∈ segment ∧ right ∈ segment) ↔
              Joined height left right)) := by
  refine ⟨fun hempty => if_pos hempty, fun hwidth hheight => ?_⟩
  have hdraws := (stands_trace expr view width height (width + 1)).draws.lift
  have hsegments : segments expr view width height =
      (trace expr view width height (width + 1)).lift.drawn.reverse :=
    if_neg (by omega)
  have hline := (trace expr view width height (width + 1)).line_lift
  refine ⟨?_, ?_, fun left right hpair => ?_⟩
  · rw [hsegments, ← hdraws.flatten, hline]
    simp
  · rw [hsegments, List.mem_reverse]
    exact hdraws.nonempty
  · rw [hsegments, ← hdraws.shares left right hpair]
    simp [Pen.Shares, hline]

end Curve

/-- The hyperbola, which has no value in the middle of five columns, is two segments. -/
theorem segments_cut_samples_hyperbola :
    let expr : Expr := .binary .div (.number 1.0) .var
    0 < 4 ∧ 0 < 3 ∧
      (segments expr .standard 4 3).flatten = samples expr .standard 4 3 5 ∧
      (segments expr .standard 4 3).map (List.map Sample.column) = [[0, 1], [3, 4]] := by
  have hdraw := (segments_cut_samples (.binary .div (.number 1.0) .var) .standard 4 3).2
  refine ⟨by decide, by decide, (hdraw (by decide) (by decide)).1, ?_⟩
  decide +kernel

end GraphCalc.Curve
