/-
The part of the plane that a plot shows, and the maps between it and a surface
of pixels with its origin at the top left.
-/
import GraphCalc.Data
namespace GraphCalc

/-- Four bounds, as they are read; only valid ones are ever shown. -/
structure Viewport where
  xMin : Float
  xMax : Float
  yMin : Float
  yMax : Float
deriving Repr, DecidableEq

namespace Viewport

/-- Ten units around the origin. -/
def standard : Viewport :=
  ⟨-10.0, 10.0, -10.0, 10.0⟩

/-- Finite bounds in ascending order on both axes. -/
def Valid (view : Viewport) : Prop :=
  (view.xMin.isFinite = true ∧ view.xMax.isFinite = true ∧
    view.yMin.isFinite = true ∧ view.yMax.isFinite = true) ∧
    view.xMin < view.xMax ∧ view.yMin < view.yMax

instance (view : Viewport) : Decidable view.Valid :=
  inferInstanceAs (Decidable (_ ∧ _ ∧ _))

theorem standard_valid : standard.Valid := by
  decide

/-- The sentence shown when bounds are refused. -/
def refusal : String :=
  "fenêtre invalide: min doit être < max sur chaque axe"

def extentX (view : Viewport) : Float :=
  view.xMax - view.xMin

def extentY (view : Viewport) : Float :=
  view.yMax - view.yMin

/-- The column of an abscissa on a surface of this width. -/
def toColumn (view : Viewport) (width x : Float) : Float :=
  (x - view.xMin) / view.extentX * width

/-- The row of an ordinate on a surface of this height; rows grow downward. -/
def toRow (view : Viewport) (height y : Float) : Float :=
  height - (y - view.yMin) / view.extentY * height

/-- The abscissa of a column on a surface of this width. -/
def ofColumn (view : Viewport) (width column : Float) : Float :=
  view.xMin + column * view.extentX / width

/-- The vertical axis is in view. -/
def showsZeroX (view : Viewport) : Bool :=
  view.xMin ≤ 0.0 && 0.0 ≤ view.xMax

/-- The horizontal axis is in view. -/
def showsZeroY (view : Viewport) : Bool :=
  view.yMin ≤ 0.0 && 0.0 ≤ view.yMax

/-! ### As a structured value -/

def fieldNames : List (List Char) :=
  ["x_min".toList, "x_max".toList, "y_min".toList, "y_max".toList]

/-- The viewport of a record; bounds that are not valid are refused. -/
def ofData? (dialect : Data.Dialect) (data : Data) : Option Viewport := do
  match ← data.fields? dialect fieldNames with
  | [xMin, xMax, yMin, yMax] =>
      let view : Viewport :=
        ⟨← Data.required Data.asDouble? xMin, ← Data.required Data.asDouble? xMax,
          ← Data.required Data.asDouble? yMin, ← Data.required Data.asDouble? yMax⟩
      if view.Valid then some view else none
  | _ => none

def data (view : Viewport) : Data :=
  Data.ofFields fieldNames
    [.real view.xMin, .real view.xMax, .real view.yMin, .real view.yMax]

end Viewport

end GraphCalc
