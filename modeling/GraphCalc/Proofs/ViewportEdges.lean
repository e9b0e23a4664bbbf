/-
The edges of a surface and the bounds of a viewport.  Where the extent of an axis is
finite its two bounds lie on the two edges of the surface, without an error.  The extent
of a valid viewport may be infinite, and then the second bound lies nowhere and the first
edge has no place on the axis.
-/
import GraphCalc.Proofs.DoubleDistances
import GraphCalc.Proofs.WholeDoubles
import GraphCalc.Viewport
namespace GraphCalc

namespace Double

open Float.Model Float.Model.UnpackedFloat
open Layout (double)

/-! ### Operations without an error -/

theorem ofUnpacked_zero : ofUnpacked (.zero .positive) = 0.0 := by
  decide +kernel

theorem unpack_zero : (0.0 : Float).toModel.unpack = .zero .positive := by
  have hparts : negative 0.0 = false ∧ pattern 0.0 = 0 := by decide +kernel
  rw [unpack_toModel, hparts.1, hparts.2, unpacked_zero]
  rfl

theorem sub_zero_eq {v : Float} (h : pattern v ≤ 2047 * 2 ^ 52) : v - 0.0 = v := by
  have hsub : v - 0.0 =
      ofUnpacked (UnpackedFloat.sub .binary64 v.toModel.unpack (0.0 : Float).toModel.unpack) := rfl
  have hform (form : UnpackedFloat) :
      UnpackedFloat.sub .binary64 form (.zero .positive) = form := by
    cases form with
    | zero sign => cases sign <;> rfl
    | notANumber | infinity _ | finite _ _ _ _ => rfl
  rw [hsub, unpack_zero, hform, ofUnpacked_unpack h]

/-- A finite double less itself is zero without a sign. -/
theorem sub_self_eq {v : Float} (h : v.isFinite = true) : v - v = 0.0 := by
  have hsub : v - v = ofUnpacked (UnpackedFloat.sub .binary64 v.toModel.unpack v.toModel.unpack) :=
    rfl
  rw [hsub, ← ofUnpacked_zero]
  by_cases hzero : value v = 0
  · rw [unpack_of_value_eq_zero hzero]
    cases negative v <;> rfl
  · obtain ⟨mantissa, exponent, hmantissa, hform, -⟩ := exists_form h hzero
    rw [hform]
    simp only [UnpackedFloat.sub, Int.sub_self]
    rfl

/-- A positive number, which may be infinite. -/
structure Positive (v : Float) : Prop where
  sign : negative v = false
  pos : 0 < pattern v
  number : pattern v ≤ 2047 * 2 ^ 52

section Positive
variable {v : Float}

theorem positive_of_value (hnumber : pattern v ≤ 2047 * 2 ^ 52) (h : 0 < value v) : Positive v where
  sign := (negative_eq_of_value (ne_of_gt h)).trans (decide_eq_false h.not_gt)
  pos := Nat.pos_of_ne_zero (fun hzero => ne_of_gt h (value_eq_zero.mpr hzero))
  number := hnumber

theorem Positive.form (h : Positive v) :
    (∃ (mantissa : ℕ) (exponent : ℤ) (hmantissa : 0 < mantissa),
        v.toModel.unpack = .finite .positive mantissa exponent hmantissa) ∨
      v.toModel.unpack = .infinity .positive := by
  rw [unpack_toModel, h.sign]
  rcases unpacked_cases false h.number with ⟨hzero, -⟩ | ⟨mantissa, exponent, hmantissa, -, heq⟩ |
    ⟨-, heq⟩
  · exact absurd hzero (Nat.ne_of_gt h.pos)
  · exact Or.inl ⟨mantissa, exponent, hmantissa, heq⟩
  · exact Or.inr heq

theorem Positive.value_ne_zero (h : Positive v) : value v ≠ 0 :=
  fun hzero => Nat.ne_of_gt h.pos (value_eq_zero.mp hzero)

theorem Positive.zero_div (h : Positive v) : 0.0 / v = 0.0 := by
  have hdiv : 0.0 / v =
      ofUnpacked (UnpackedFloat.div .binary64 (0.0 : Float).toModel.unpack v.toModel.unpack) := rfl
  rw [hdiv, unpack_zero, ← ofUnpacked_zero]
  rcases h.form with ⟨mantissa, exponent, hmantissa, hform⟩ | hform <;> rw [hform] <;> rfl

theorem Positive.zero_mul (h : Positive v) (hfinite : v.isFinite = true) : 0.0 * v = 0.0 := by
  have hmul : 0.0 * v =
      ofUnpacked (UnpackedFloat.mul .binary64 (0.0 : Float).toModel.unpack v.toModel.unpack) := rfl
  obtain ⟨mantissa, exponent, hmantissa, hform, -⟩ := exists_form hfinite h.value_ne_zero
  rw [hmul, unpack_zero, hform, h.sign, ← ofUnpacked_zero]
  rfl

end Positive

section Finite
variable {v : Float} (h : v.isFinite = true)
include h

theorem div_self_eq (hne : value v ≠ 0) : v / v = 1.0 := by
  have hquotient := rounds_div h h hne
  have hone : (1.0 : Float).isFinite = true := by decide +kernel
  rw [div_self hne, ← value_one] at hquotient
  refine eq_of_value ?_ (hquotient.value_eq (pattern_le_of_isFinite hone) rfl)
  rw [value_one]
  exact one_ne_zero

theorem one_mul_eq (hne : value v ≠ 0) : 1.0 * v = v := by
  have hproduct := rounds_mul (by decide +kernel : (1.0 : Float).isFinite = true) h
  rw [value_one, one_mul] at hproduct
  exact eq_of_value hne (hproduct.value_eq (pattern_le_of_isFinite h) rfl)

/-- Only a negative zero is changed by adding zero, and the zeros are one number. -/
theorem add_zero_beq : (v + 0.0 == v) = true := by
  have hsum := rounds_add h (by decide +kernel : (0.0 : Float).isFinite = true)
  rw [value_zero, add_zero] at hsum
  rw [beq_iff_value hsum.pattern_le (pattern_le_of_isFinite h)]
  exact hsum.value_eq (pattern_le_of_isFinite h) rfl

end Finite

/-! ### Infinite extents -/

section Infinite
variable {v : Float}

theorem isNaN_div_self (h : v.isInf = true) : (v / v).isNaN = true := by
  have hdiv : v / v = ofUnpacked (UnpackedFloat.div .binary64 v.toModel.unpack v.toModel.unpack) :=
    rfl
  rw [hdiv, unpack_of_isInf h]
  exact isNaN_notANumber

theorem isNaN_zero_mul (h : v.isInf = true) : (0.0 * v).isNaN = true := by
  have hmul : 0.0 * v =
      ofUnpacked (UnpackedFloat.mul .binary64 (0.0 : Float).toModel.unpack v.toModel.unpack) := rfl
  rw [hmul, unpack_zero, unpack_of_isInf h]
  exact isNaN_notANumber

end Infinite

theorem isNaN_add_right (v : Float) {w : Float} (h : w.isNaN = true) : (v + w).isNaN = true := by
  have hadd : v + w = ofUnpacked (UnpackedFloat.add .binary64 v.toModel.unpack w.toModel.unpack) :=
    rfl
  have hform (form : UnpackedFloat) :
      UnpackedFloat.add .binary64 form .notANumber = .notANumber := by
    cases form <;> rfl
  rw [hadd, unpack_of_isNaN h, hform]
  exact isNaN_notANumber

/-! ### Sizes -/

/-- A natural number of up to 53 bits is its own double. -/
theorem value_ofNat {n : ℕ} (h : n < 2 ^ 53) : value (Float.ofNat n) = n := by
  obtain ⟨w, hw, hvalue⟩ := exists_value n 0 (by simpa using h) (by omega) (by omega)
  rw [zpow_zero, mul_one, Int.cast_natCast] at hvalue
  have hnumber : n.toUInt64.toNat = n := by
    rw [Nat.toUInt64_eq, UInt64.toNat_ofNat']
    omega
  have hword : Rounds n n.toUInt64.toFloat := by
    change Rounds n
      (ofUnpacked (UnpackedFloat.normalize .binary64 (n.toUInt64.toNat : ℤ) 0 .positive))
    rw [hnumber]
    exact rounds_normalize _ (by rw [zpow_zero, mul_one, Int.cast_natCast])
  have hexact := hword.value_eq (pattern_le_of_isFinite hw) hvalue.symm
  have hfinite : n.toUInt64.toFloat.isFinite = true :=
    isFinite_of_value_eq (hexact.trans hvalue.symm) hw
  have hunit : (ofPattern false (1023 * 2 ^ 52)).isFinite = true ∧
      value (ofPattern false (1023 * 2 ^ 52)) = 1 := by
    have hone : ofPattern false (1023 * 2 ^ 52) = 1.0 := by decide +kernel
    rw [hone, value_one]
    exact ⟨by decide +kernel, rfl⟩
  have hproduct : Float.ofNat n = n.toUInt64.toFloat * ofPattern false (1023 * 2 ^ 52) :=
    dif_pos ⟨h, Nat.zero_le 22⟩
  have hrounds := rounds_mul hfinite hunit.1
  rw [hexact, hunit.2, mul_one, ← hproduct] at hrounds
  exact hrounds.value_eq (pattern_le_of_isFinite hw) hvalue.symm

theorem positive_ofNat {n : ℕ} (hpos : 0 < n) (h : n < 2 ^ 53) : Positive (Float.ofNat n) := by
  refine positive_of_value (pattern_le_of_isFinite (ofNat_bounds h).2) ?_
  rw [value_ofNat h]
  exact_mod_cast hpos

end Double

namespace Viewport

open Double

/-! ### One axis -/

section Axis
variable {lower upper extent size : Float}

/-- The extent of two ascending bounds is a positive number, or it overflows. -/
theorem positive_extent (hlower : lower.isFinite = true) (hupper : upper.isFinite = true)
    (hless : lower < upper) : Positive (upper - lower) := by
  have hascending := (lt_iff_value (pattern_le_of_isFinite hlower)
    (pattern_le_of_isFinite hupper)).mp hless
  exact positive_of_value (rounds_sub hupper hlower).pattern_le
    (value_sub_pos hlower hupper hascending)

/-- The first bound is no distance from itself, on any extent. -/
theorem share_lower (hlower : lower.isFinite = true) (hless : Positive extent)
    (hsize : Positive size) (hfinite : size.isFinite = true) :
    (lower - lower) / extent * size = 0.0 := by
  rw [sub_self_eq hlower, hless.zero_div, hsize.zero_mul hfinite]

/-- The second bound is a whole extent from the first. -/
theorem share_upper (hless : Positive extent) (hextent : extent.isFinite = true)
    (hsize : Positive size) (hfinite : size.isFinite = true) : extent / extent * size = size := by
  rw [div_self_eq hextent hless.value_ne_zero, one_mul_eq hfinite hsize.value_ne_zero]

/-- Nothing is added to the first bound, and that clears no more than the sign of a zero. -/
theorem add_share_zero (hlower : lower.isFinite = true) (hless : Positive extent)
    (hextent : extent.isFinite = true) (hsize : Positive size) :
    (lower + 0.0 * extent / size == lower) = true := by
  rw [hless.zero_mul hextent, hsize.zero_div]
  exact add_zero_beq hlower

theorem isNaN_share_upper (hinfinite : extent.isInf = true) (size : Float) :
    (extent / extent * size).isNaN = true :=
  (isNaN_arithmetic (isNaN_div_self hinfinite) size).2.2.1

theorem isNaN_add_share_zero (hinfinite : extent.isInf = true) (lower size : Float) :
    (lower + 0.0 * extent / size).isNaN = true :=
  isNaN_add_right lower (isNaN_arithmetic (isNaN_zero_mul hinfinite) size).2.2.2

end Axis

/-! ### Both axes -/

/-- The bounds of the horizontal axis lie on the edges of a surface of this width. -/
structure ColumnsMeet (view : Viewport) (width : Float) : Prop where
  left : view.toColumn width view.xMin = 0.0
  right : view.toColumn width view.xMax = width
  first : (view.ofColumn width 0.0 == view.xMin) = true

/-- The bounds of the vertical axis lie on the edges of a surface of this height. -/
structure RowsMeet (view : Viewport) (height : Float) : Prop where
  bottom : view.toRow height view.yMin = height
  top : view.toRow height view.yMax = 0.0

/-- The horizontal axis is too long for the doubles, and only its first bound has a place. -/
structure ColumnsLost (view : Viewport) (width : Float) : Prop where
  left : view.toColumn width view.xMin = 0.0
  right : (view.toColumn width view.xMax).isNaN = true
  first : (view.ofColumn width 0.0).isNaN = true

/-- The vertical axis is too long for the doubles, and only its first bound has a place. -/
structure RowsLost (view : Viewport) (height : Float) : Prop where
  bottom : view.toRow height view.yMin = height
  top : (view.toRow height view.yMax).isNaN = true

section Edges
variable {view : Viewport} (hvalid : view.Valid) {size : Float} (hsize : Positive size)
  (hfinite : size.isFinite = true)
include hvalid hsize hfinite

theorem columnsMeet (hextent : view.extentX.isFinite = true) : ColumnsMeet view size := by
  obtain ⟨⟨hxMin, hxMax, -⟩, hx, -⟩ := hvalid
  have hless := positive_extent hxMin hxMax hx
  exact ⟨share_lower hxMin hless hsize hfinite, share_upper hless hextent hsize hfinite,
    add_share_zero hxMin hless hextent hsize⟩

theorem columnsLost (hinfinite : view.extentX.isInf = true) : ColumnsLost view size := by
  obtain ⟨⟨hxMin, hxMax, -⟩, hx, -⟩ := hvalid
  exact ⟨share_lower hxMin (positive_extent hxMin hxMax hx) hsize hfinite,
    isNaN_share_upper hinfinite size, isNaN_add_share_zero hinfinite view.xMin size⟩

theorem toRow_yMin : view.toRow size view.yMin = size := by
  obtain ⟨⟨-, -, hyMin, hyMax⟩, -, hy⟩ := hvalid
  have hless : Positive view.extentY := positive_extent hyMin hyMax hy
  rw [toRow, share_lower hyMin hless hsize hfinite, sub_zero_eq hsize.number]

theorem rowsMeet (hextent : view.extentY.isFinite = true) : RowsMeet view size := by
  have hbottom := toRow_yMin hvalid hsize hfinite
  obtain ⟨⟨-, -, hyMin, hyMax⟩, -, hy⟩ := hvalid
  refine ⟨hbottom, ?_⟩
  have hupper := share_upper (positive_extent hyMin hyMax hy) hextent hsize hfinite
  rw [toRow]
  exact (congrArg (size - ·) hupper).trans (sub_self_eq hfinite)

theorem rowsLost (hinfinite : view.extentY.isInf = true) : RowsLost view size :=
  ⟨toRow_yMin hvalid hsize hfinite, isNaN_sub_right size (isNaN_share_upper hinfinite size)⟩

theorem columns_of_valid : if view.extentX.isFinite = true then ColumnsMeet view size
    else ColumnsLost view size := by
  split
  · next hextent => exact columnsMeet hvalid hsize hfinite hextent
  · next hextent =>
      have hnumber := isNaN_sub_of_isFinite hvalid.1.2.1 hvalid.1.1
      exact columnsLost hvalid hsize hfinite ((isFinite_or_isInf hnumber).resolve_left hextent)

theorem rows_of_valid : if view.extentY.isFinite = true then RowsMeet view size
    else RowsLost view size := by
  split
  · next hextent => exact rowsMeet hvalid hsize hfinite hextent
  · next hextent =>
      have hnumber := isNaN_sub_of_isFinite hvalid.1.2.2.2 hvalid.1.2.2.1
      exact rowsLost hvalid hsize hfinite ((isFinite_or_isInf hnumber).resolve_left hextent)

end Edges

/-- On a surface of any size in pixels the bounds of an axis lie on the two edges exactly
where its extent is finite. -/
theorem edges_of_valid {view : Viewport} (hvalid : view.Valid) {width height : ℕ}
    (hwidth : 0 < width ∧ width < 2 ^ 32) (hheight : 0 < height ∧ height < 2 ^ 32) :
    (if view.extentX.isFinite = true then ColumnsMeet view (Float.ofNat width)
      else ColumnsLost view (Float.ofNat width)) ∧
    if view.extentY.isFinite = true then RowsMeet view (Float.ofNat height)
      else RowsLost view (Float.ofNat height) := by
  have hsmall : width < 2 ^ 53 ∧ height < 2 ^ 53 := by omega
  exact ⟨columns_of_valid hvalid (positive_ofNat hwidth.1 hsmall.1) (ofNat_bounds hsmall.1).2,
    rows_of_valid hvalid (positive_ofNat hheight.1 hsmall.2) (ofNat_bounds hsmall.2).2⟩

/-- From left to right more than the largest double, and ten units around zero from bottom
to top. -/
def wide : Viewport :=
  ⟨-1e308, 1e308, -10.0, 10.0⟩

theorem edges_of_valid_wide : wide.Valid ∧ ColumnsLost wide (Float.ofNat 400) ∧
    RowsMeet wide (Float.ofNat 300) := by
  have hvalid : wide.Valid := by decide +kernel
  have hedges := edges_of_valid hvalid (by decide : 0 < 400 ∧ 400 < 2 ^ 32)
    (by decide : 0 < 300 ∧ 300 < 2 ^ 32)
  rw [if_neg (by decide +kernel), if_pos (by decide +kernel)] at hedges
  exact ⟨hvalid, hedges⟩

/-- The right bound of that window has no place on a surface. -/
theorem not_columnsMeet_wide : wide.Valid ∧ ¬ ColumnsMeet wide (Float.ofNat 400) := by
  have hright : wide.toColumn (Float.ofNat 400) wide.xMax ≠ Float.ofNat 400 := by decide +kernel
  exact ⟨by decide +kernel, fun hmeet => hright hmeet.right⟩

end Viewport

end GraphCalc
