/-
The factorial of every real number.  Whole numbers up to 170 have the exact
product rounded once; other numbers go through the gamma function, computed
from nine coefficients, with the reflection formula to the left of one half.
-/
import GraphCalc.Binary
namespace GraphCalc

def piValue : Float :=
  3.141592653589793

def eulerValue : Float :=
  2.718281828459045

namespace Gamma

/-- The coefficients after the constant one, each with its index. -/
def coefficients : List (Float × Float) :=
  [(1, 676.5203681218851), (2, -1259.1392167224028), (3, 771.3234287776531),
    (4, -176.6150291621406), (5, 12.507343278686905), (6, -0.13857109526572012),
    (7, 9.984369578019572e-6), (8, 1.5056327351493116e-7)]

/-- The approximation at `z`, for `z` not below one half.  The power and the
exponential are one exponential, so an overflow gives infinity. -/
def approximation (z : Float) : Float :=
  let z := z - 1.0
  let sum := coefficients.foldl (fun sum term => sum + term.2 / (z + term.1))
    0.9999999999998099
  let t := z + 7.0 + 0.5
  Float.sqrt (2.0 * piValue) * Float.exp ((z + 0.5) * Float.log t - t) * sum

end Gamma

def gamma (z : Float) : Float :=
  if z < 0.5 then piValue / (Float.sin (piValue * z) * Gamma.approximation (1.0 - z))
  else Gamma.approximation z

/-- The greatest number whose factorial is a finite double. -/
def greatestFactorial : Float :=
  170.0

/-- The product of the numbers from one to `n`. -/
def product : Nat → Nat
  | 0 => 1
  | n + 1 => (n + 1) * product n

/-- The factorial: infinite beyond 170, undefined at the negative whole
numbers. -/
def factorial (v : Float) : Float :=
  if v.isNaN then v
  else if greatestFactorial < v then 1.0 / 0.0
  else if v < 0.0 then
    if Double.isWhole v then 0.0 / 0.0 else gamma (v + 1.0)
  else if Double.isWhole v then Double.ofQuotient false (product (Double.wholePart v)) 1
  else gamma (v + 1.0)

end GraphCalc
