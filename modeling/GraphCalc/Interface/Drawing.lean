/-
What is drawn on the surface of the plot tab: the grid, the axes, the labels
and the curves, one over the other.
-/
import GraphCalc.App
import GraphCalc.Curve
import GraphCalc.Grid
namespace GraphCalc.Interface

/-- A place on the surface, from its top left corner. -/
structure Point where
  x : Float
  y : Float
deriving Repr, DecidableEq

/-- What is drawn. -/
inductive Shape where
  | line (colour : Colour) (width : Float32) (first last : Point)
  | label (text : List Char)
  | dot (colour : Colour) (radius : Float32) (centre : Point)
  | curve (colour : Colour) (width : Float32) (points : List Point)
deriving Repr, DecidableEq

namespace Drawing

def gridColour : Colour :=
  ⟨0x1A, 0x27, 0x44⟩

def axisColour : Colour :=
  ⟨0x3D, 0x5A, 0x80⟩

def vertical (height : Nat) (colour : Colour) (width : Float32) (x : Float) : Shape :=
  .line colour width ⟨x, 0.0⟩ ⟨x, Float.ofNat height⟩

def horizontal (width : Nat) (colour : Colour) (stroke : Float32) (y : Float) : Shape :=
  .line colour stroke ⟨0.0, y⟩ ⟨Float.ofNat width, y⟩

/-- The grid, the axes and the labels. -/
def background (view : Viewport) (width height : Nat) : List Shape :=
  let plan := Grid.plan view (Float.ofNat width) (Float.ofNat height)
  plan.vertical.map (fun line => vertical height gridColour 1.0 line.position) ++
    plan.horizontal.map (fun line => horizontal width gridColour 1.0 line.position) ++
    plan.axisX.toList.map (horizontal width axisColour 2.0) ++
    plan.axisY.toList.map (vertical height axisColour 2.0) ++
    plan.vertical.filterMap (fun line => line.label.map Shape.label) ++
    plan.horizontal.filterMap (fun line => line.label.map Shape.label) ++
    plan.origin.toList.map (fun _ => .label ['0'])

/-- A row at most two heights above the surface and two below it. -/
def clampRow (height : Nat) (row : Float) : Float :=
  let least := -2.0 * Float.ofNat height
  let most := 3.0 * Float.ofNat height
  if row < least then least else if most < row then most else row

def place (height : Nat) (sample : Curve.Sample) : Point :=
  ⟨Float.ofNat sample.column, clampRow height sample.row⟩

/-- A segment of a curve; a single point is a dot as wide as the curve. -/
def segment (colour : Colour) (stroke : Float32) : List Point → Shape
  | [point] => .dot colour (stroke / 2.0) point
  | points => .curve colour stroke points

/-- The curve of a function.  A text that does not compile has none. -/
def curve (stroke : Float32) (view : Viewport) (width height : Nat) (plotted : Plotted) :
    List Shape :=
  match Curve.ofText plotted.text view width height with
  | .ok segments =>
      segments.map (fun samples => segment plotted.colour stroke (samples.map (place height)))
  | .error _ => []

def shapes (stroke : Float32) (tab : PlotTab) (width height : Nat) : List Shape :=
  background tab.view width height ++
    tab.functions.flatMap (curve stroke tab.view width height)

/-- The drawing, if the plot tab is shown. -/
def ofApp? (app : App) (width height : Nat) : Option (List Shape) :=
  match app.tab with
  | .plot => some (shapes app.settings.stroke app.plot width height)
  | _ => none

def events (app : App) (width height : Nat) : List Event :=
  match app.tab with
  | .plot =>
      app.plot.functions.flatMap (fun plotted =>
        Curve.events plotted.text app.plot.view width height)
  | _ => []

end Drawing

end GraphCalc.Interface
