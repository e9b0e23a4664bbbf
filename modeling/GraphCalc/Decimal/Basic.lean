/-
Decimal numbers with a coefficient and a power of ten, their numerals, and the
binary pattern nearest to them.
-/
import GraphCalc.Binary
namespace GraphCalc

-- Powers are core's own, also where a wider import brings another instance.
attribute [local instance (high)] instPowNat

/-- The number `coefficient * 10 ^ exponent`. -/
structure Decimal where
  coefficient : Nat
  exponent : Int
deriving Repr, DecidableEq

/-- The decimal digits of a natural number, the first one first. -/
def numeral (n : Nat) : List Char :=
  Nat.toDigits 10 n

/-- The number that a row of decimal digits stands for. -/
def numeralValue (digits : List Char) : Nat :=
  digits.foldl (fun value digit => 10 * value + (digit.toNat - '0'.toNat)) 0

def integerNumeral (n : Int) : List Char :=
  if n < 0 then '-' :: numeral n.natAbs else numeral n.natAbs

namespace Decimal

/-- Numerator of the value as an exact quotient. -/
def numerator (d : Decimal) : Nat :=
  d.coefficient * 10 ^ d.exponent.toNat

def denominator (d : Decimal) : Nat :=
  10 ^ (-d.exponent).toNat

/-- The nearest pattern of a layout.  Numbers from `10 ^ 400` up and those below
`10 ^ (-400)` are decided by their size alone. -/
def pattern (layout : Layout) (d : Decimal) : Nat :=
  if d.coefficient = 0 then 0
  else if 400 < d.exponent then layout.top
  else if d.exponent + (d.coefficient.log2 + 1) < -400 then 0
  else layout.nearest d.numerator d.denominator

def toDouble (negative : Bool) (d : Decimal) : Float :=
  Double.ofPattern negative (d.pattern Layout.double)

/-- The power of ten of the first digit of a positive quotient. -/
def leadingExponent (numerator denominator : Nat) : Int :=
  if denominator ≤ numerator then (numeral (numerator / denominator)).length - 1
  else -((numeral ((denominator - 1) / numerator)).length : Int)

/-- A positive quotient rounded to a count of significant digits, from the
exact value and with a tie to the even digit.  The coefficient has exactly
`digits` digits. -/
def significant (digits : Nat) (numerator denominator : Nat) : Decimal :=
  let lead := leadingExponent numerator denominator
  let shift : Int := digits - 1 - lead
  let coefficient := roundHalfEven (numerator * 10 ^ shift.toNat)
    (denominator * 10 ^ (-shift).toNat)
  if coefficient = 10 ^ digits then ⟨10 ^ (digits - 1), 1 - shift⟩
  else ⟨coefficient, -shift⟩

/-- A quotient rounded to a count of decimal places, in the same way. -/
def places (count : Nat) (numerator denominator : Nat) : Decimal :=
  ⟨roundHalfEven (numerator * 10 ^ count) denominator, -count⟩

end Decimal

end GraphCalc
