/-
The grid behind a plot: lines at the multiples of a round step, the axes, and
the labels of the lines.  The step is 1, 2 or 5 times a power of ten.
-/
import GraphCalc.Display
import GraphCalc.Viewport
namespace GraphCalc.Grid

-- Powers are core's own, also where a wider import brings another instance.
attribute [local instance (high)] instPowNat

/-- The step for an extent, given the power of ten at or below it. -/
def stepOf {α : Type} [Div α] [LE α] [DecidableLE α] [OfNat α 2] [OfNat α 5]
    (extent power : α) : α :=
  if extent / power ≤ 2 then power / 5
  else if extent / power ≤ 5 then power / 2
  else power

/-- The power of ten at or below a positive number, as an exponent.  The
logarithm of a number just below a power of ten may round up to a whole number;
close to the end of a decade the rounded logarithm therefore decides. -/
def decade (extent : Float) : Int :=
  let numerator := Double.units extent
  let denominator := Layout.double.unitDenominator
  let lead := Decimal.leadingExponent numerator denominator
  let next := lead + 1
  if denominator * 0xFFFFFFFFFF * 10 ^ next.toNat ≤
      numerator * 0x10000000000 * 10 ^ (-next).toNat then
    Double.truncate (Double.floor (Float.log10 extent))
  else lead

/-- A power of ten.  Those from `10 ^ 0` to `10 ^ 22` are doubles themselves. -/
def powerOfTen (exponent : Int) : Float :=
  if 0 ≤ exponent ∧ exponent ≤ 22 then Double.ofInt (10 ^ exponent.toNat)
  else Float.pow 10.0 (Double.ofInt exponent)

/-- The step for an extent, if there is one. -/
def step? (extent : Float) : Option Float :=
  if !extent.isFinite || extent ≤ 0.0 then none
  else
    let step := stepOf extent (powerOfTen (decade extent))
    if step.isFinite && 0.0 < step then some step else none

def lineLimit : Nat :=
  1000

/-- What the marks of an axis ask of its numbers, next to their arithmetic. -/
class Scale (α : Type) where
  isNaN : α → Bool
  isFinite : α → Bool
  floor : α → α
  ceil : α → α
  /-- the integer part, within the range of a signed word of 64 bits -/
  toWord : α → Int

instance : Scale Float where
  isNaN := Float.isNaN
  isFinite := Float.isFinite
  floor := Double.floor
  ceil := Double.ceil
  toWord := Double.toWord

/-- A multiple of the step. -/
structure Mark (α : Type) where
  index : Int
  value : α
deriving Repr, DecidableEq

section Marks
variable {α : Type} [Add α] [Sub α] [Mul α] [Div α] [LE α] [LT α] [OfScientific α]
  [DecidableLE α] [DecidableLT α]

/-- The numbers from `index` to `last` by steps of one, at most `count`. -/
def countFrom : Nat → α → α → List α
  | 0, _, _ => []
  | count + 1, index, last =>
      if index ≤ last then index :: countFrom count (index + 1.0) last else []

/-- The multiples of a step from `lower` to `upper`. -/
def marks [Scale α] (lower upper step : α) : List (Mark α) :=
  if Scale.isNaN step || step ≤ 0.0 || !Scale.isFinite lower || !Scale.isFinite upper ||
      upper < lower then []
  else
    let first := Scale.ceil (lower / step)
    let last := Scale.floor (upper / step)
    if !Scale.isFinite (last - first) || last < first then []
    else (countFrom lineLimit first last).map (fun index => ⟨Scale.toWord index, index * step⟩)

end Marks

/-- The label of a line: exponential without places from 1000 up and below one
hundredth, else three significant digits. -/
def label (v : Float) : List Char :=
  if v == 0.0 then ['0']
  else if 1000.0 ≤ v.abs || v.abs < 0.01 then Display.exponential 0 v
  else Double.plainText (Double.roundSignificant 3 v)

/-- A line of the grid; the one through zero has no label. -/
structure Line where
  value : Float
  position : Float
  label : Option (List Char)
deriving Repr, DecidableEq

/-- The lines across one axis, placed on the surface. -/
def lines (lower upper step : Float) (place : Float → Float) : List Line :=
  (marks lower upper step).map (fun mark =>
    ⟨mark.value, place mark.value, if mark.index = 0 then none else some (label mark.value)⟩)

/-- The distance of the labels from their axis or from the edge. -/
def margin : Float :=
  5.0

/-- Everything behind the curves. -/
structure Plan where
  stepX : Float
  stepY : Float
  vertical : List Line
  horizontal : List Line
  /-- the row of the horizontal axis, if it is in view -/
  axisX : Option Float
  /-- the column of the vertical axis, if it is in view -/
  axisY : Option Float
  /-- the row of the labels of the vertical lines -/
  labelRow : Float
  /-- the column of the labels of the horizontal lines -/
  labelColumn : Float
  /-- the place of the label of the origin, if it is in view -/
  origin : Option (Float × Float)
deriving Repr, DecidableEq

/-- The grid of a viewport on a surface. -/
def plan (view : Viewport) (width height : Float) : Plan :=
  let stepX := (step? view.extentX).getD 1.0
  let stepY := (step? view.extentY).getD 1.0
  let axisX := if view.showsZeroY then some (view.toRow height 0.0) else none
  let axisY := if view.showsZeroX then some (view.toColumn width 0.0) else none
  { stepX
    stepY
    vertical := lines view.xMin view.xMax stepX (view.toColumn width)
    horizontal := lines view.yMin view.yMax stepY (view.toRow height)
    axisX
    axisY
    labelRow := match axisX with
      | some row => row + margin
      | none => height - margin
    labelColumn := match axisY with
      | some column => column + margin
      | none => margin
    origin := match axisY, axisX with
      | some column, some row => some (column + margin, row + margin)
      | _, _ => none }

end GraphCalc.Grid
