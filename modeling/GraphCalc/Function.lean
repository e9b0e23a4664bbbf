/-
The functions of one argument, their names, and their values in an angle mode.
-/
import GraphCalc.Gamma
namespace GraphCalc

/-- The unit of the angles that the trigonometric functions take and give. -/
inductive AngleMode where
  | radians
  | degrees
deriving Repr, DecidableEq

/-- The functions that may be called by name. -/
inductive Function where
  | sin
  | cos
  | tan
  | asin
  | acos
  | atan
  | log
  | ln
  | sqrt
  | abs
  | exp
  | factorial
deriving Repr, DecidableEq

namespace Function

def all : List Function :=
  [sin, cos, tan, asin, acos, atan, log, ln, sqrt, abs, exp, factorial]

def name : Function → String
  | sin => "sin"
  | cos => "cos"
  | tan => "tan"
  | asin => "asin"
  | acos => "acos"
  | atan => "atan"
  | log => "log"
  | ln => "ln"
  | sqrt => "sqrt"
  | abs => "abs"
  | exp => "exp"
  | factorial => "factorial"

def ofName? (name : String) : Option Function :=
  all.find? (fun f => f.name == name)

theorem mem_all (f : Function) : f ∈ all := by
  cases f <;> decide

theorem ofName?_name (f : Function) : ofName? f.name = some f := by
  cases f <;> rfl

def toRadians (mode : AngleMode) (angle : Float) : Float :=
  match mode with
  | .radians => angle
  | .degrees => angle * (piValue / 180.0)

/-- An angle in radians, in the unit of the mode. -/
def ofRadians (mode : AngleMode) (angle : Float) : Float :=
  match mode with
  | .radians => angle
  | .degrees => angle * (180.0 / piValue)

/-- Whether the value depends on the angle mode. -/
def isTrigonometric : Function → Bool
  | sin | cos | tan | asin | acos | atan => true
  | _ => false

/-- The value of a function.  The logarithms have none at zero and below. -/
def apply (mode : AngleMode) (f : Function) (v : Float) : Float :=
  match f with
  | sin => Float.sin (toRadians mode v)
  | cos => Float.cos (toRadians mode v)
  | tan => Float.tan (toRadians mode v)
  | asin => ofRadians mode (Float.asin v)
  | acos => ofRadians mode (Float.acos v)
  | atan => ofRadians mode (Float.atan v)
  | log => if v ≤ 0.0 then 0.0 / 0.0 else Float.log10 v
  | ln => if v ≤ 0.0 then 0.0 / 0.0 else Float.log v
  | sqrt => Float.sqrt v
  | abs => Float.abs v
  | exp => Float.exp v
  | factorial => GraphCalc.factorial v

/-- Only the trigonometric functions see the angle mode. -/
theorem apply_mode {f : Function} (h : f.isTrigonometric = false)
    (left right : AngleMode) (v : Float) : f.apply left v = f.apply right v := by
  cases f <;> first | rfl | simp [isTrigonometric] at h

end Function

end GraphCalc
