/-
The curve of an expression: one sample for each column of pixels, cut into
segments where the expression has no finite value and where it jumps by more
than the height of the surface.
-/
import GraphCalc.Event
namespace GraphCalc.Curve

/-- A point of a curve: a column of pixels and a row, which may lie outside the
surface. -/
structure Sample where
  column : Nat
  row : Float
deriving Repr, DecidableEq

/-- The sample of an expression in a column, where it is finite. -/
def sample? (expr : Expr) (view : Viewport) (width height column : Nat) : Option Sample :=
  let x := view.ofColumn (Float.ofNat width) (Float.ofNat column)
  let y := expr.eval .radians x
  if y.isFinite then some ⟨column, view.toRow (Float.ofNat height) y⟩ else none

/-- Two samples are further apart than the height of the surface. -/
def jumps (height : Nat) (left right : Sample) : Bool :=
  Float.ofNat height < (right.row - left.row).abs

/-- What is drawn of a curve. -/
structure Pen where
  /-- the segments that are complete, the last one first -/
  drawn : List (List Sample)
  /-- the samples of the segment that is being drawn, the last one first -/
  line : List Sample
deriving Repr, DecidableEq

namespace Pen

/-- The segment that is being drawn is complete, if it has samples. -/
def lift (pen : Pen) : Pen :=
  if pen.line = [] then pen else ⟨pen.line.reverse :: pen.drawn, []⟩

/-- One more sample, which a jump puts on a new segment. -/
def draw (pen : Pen) (height : Nat) (sample : Sample) : Pen :=
  let lifted :=
    match pen.line with
    | last :: _ => if jumps height last sample then pen.lift else pen
    | [] => pen
  { lifted with line := sample :: lifted.line }

/-- One more column: the segment ends where there is no sample. -/
def step (height : Nat) (pen : Pen) : Option Sample → Pen
  | none => pen.lift
  | some sample => pen.draw height sample

end Pen

/-- The pen behind the first columns, from left to right. -/
def trace (expr : Expr) (view : Viewport) (width height columns : Nat) : Pen :=
  (List.range columns).foldl
    (fun pen column => Pen.step height pen (sample? expr view width height column)) ⟨[], []⟩

/-- The segments of a curve.  A surface without columns or rows has none. -/
def segments (expr : Expr) (view : Viewport) (width height : Nat) : List (List Sample) :=
  if width = 0 ∨ height = 0 then []
  else (trace expr view width height (width + 1)).lift.drawn.reverse

def ofText (text : List Char) (view : Viewport) (width height : Nat) :
    Except SyntaxError (List (List Sample)) := do
  return segments (← compile text) view width height

def events (text : List Char) (view : Viewport) (width height : Nat) : List Event :=
  compileEvents text ++
    match compile text with
    | .ok expr =>
        if width = 0 ∨ height = 0 then []
        else
          let segments := segments expr view width height
          [.sampled expr width height segments.length segments.flatten.length]
    | .error _ => []

end GraphCalc.Curve
