/-
Binary floating-point numbers, bit by bit.  Every finite magnitude of a layout
is a whole number of least units; its pattern, the bits without the sign,
counts the magnitudes in ascending order.  `Layout.nearest` rounds an exact
quotient to the nearest pattern, a tie to the even one.
-/
namespace GraphCalc

-- Powers are core's own, also where a wider import brings another instance.
attribute [local instance (high)] instPowNat

/-- The parameters of a binary layout. -/
structure Layout where
  /-- bits of a significand -/
  precision : Nat
  /-- the least positive magnitude is `2 ^ (-unit)` -/
  unit : Nat
  /-- the pattern of infinity: the first one that is not finite -/
  top : Nat
deriving Repr, DecidableEq

/-- Double precision: significands of 53 bits, units of `2 ^ (-1074)`. -/
def Layout.double : Layout :=
  ⟨53, 1074, 0x7FF0000000000000⟩

/-- Single precision: significands of 24 bits, units of `2 ^ (-149)`. -/
def Layout.single : Layout :=
  ⟨24, 149, 0x7F800000⟩

/-- The quotient rounded to the nearest natural number, a tie to the even one. -/
def roundHalfEven (numerator denominator : Nat) : Nat :=
  let quotient := numerator / denominator
  let rest := numerator % denominator
  if 2 * rest < denominator then quotient
  else if denominator < 2 * rest then quotient + 1
  else quotient + quotient % 2

namespace Layout

/-- The magnitude of a finite pattern, counted in least units. -/
def units (layout : Layout) (pattern : Nat) : Nat :=
  let block := pattern / 2 ^ (layout.precision - 1) - 1
  (pattern - block * 2 ^ (layout.precision - 1)) * 2 ^ block

/-- The pattern nearest to an exact quotient.  A quotient too large for every
finite pattern gives the pattern of infinity. -/
def nearest (layout : Layout) (numerator denominator : Nat) : Nat :=
  let scaled := numerator * 2 ^ layout.unit
  let block := (scaled / denominator).log2 + 1 - layout.precision
  min layout.top
    (block * 2 ^ (layout.precision - 1) + roundHalfEven scaled (denominator * 2 ^ block))

/-- The units of a finite pattern, as an exact quotient over this denominator. -/
def unitDenominator (layout : Layout) : Nat :=
  2 ^ layout.unit

end Layout

/-! ### Doubles -/

namespace Double

/-- The sign bit. -/
def negative (v : Float) : Bool :=
  0x8000000000000000 ≤ v.toBits.toNat

/-- The bits without the sign. -/
def pattern (v : Float) : Nat :=
  v.toBits.toNat % 0x8000000000000000

/-- The double with this sign and this pattern. -/
def ofPattern (negative : Bool) (pattern : Nat) : Float :=
  Float.ofBits (UInt64.ofNat (pattern + if negative then 0x8000000000000000 else 0))

/-- The magnitude in units of `2 ^ (-1074)`. -/
def units (v : Float) : Nat :=
  Layout.double.units (pattern v)

def ofQuotient (negative : Bool) (numerator denominator : Nat) : Float :=
  ofPattern negative (Layout.double.nearest numerator denominator)

def ofInt (n : Int) : Float :=
  ofQuotient (decide (n < 0)) n.natAbs 1

/-- The integer part of the magnitude. -/
def wholePart (v : Float) : Nat :=
  units v / Layout.double.unitDenominator

/-- A finite number without fractional part. -/
def isWhole (v : Float) : Bool :=
  v.isFinite && units v % Layout.double.unitDenominator == 0

/-- The greatest whole number that is not above, with the sign kept. -/
def floor (v : Float) : Float :=
  if !v.isFinite || isWhole v then v
  else if negative v then ofQuotient true (wholePart v + 1) 1
  else ofQuotient false (wholePart v) 1

/-- The least whole number that is not below, with the sign kept: the ceiling
of a number between -1 and 0 is negative zero. -/
def ceil (v : Float) : Float :=
  if !v.isFinite || isWhole v then v
  else if negative v then ofQuotient true (wholePart v) 1
  else ofQuotient false (wholePart v + 1) 1

/-- The integer part of a finite number, cut toward zero. -/
def truncate (v : Float) : Int :=
  if negative v then -(wholePart v : Int) else wholePart v

/-- The integer part in the range of a signed word of 64 bits: numbers beyond
the range, the infinities included, give its end, and NaN gives zero. -/
def toWord (v : Float) : Int :=
  if v.isNaN then 0
  else if !v.isFinite then (if negative v then -0x8000000000000000 else 0x7FFFFFFFFFFFFFFF)
  else max (-0x8000000000000000) (min 0x7FFFFFFFFFFFFFFF (truncate v))

end Double

/-! ### Singles -/

namespace Single

def negative (v : Float32) : Bool :=
  0x80000000 ≤ v.toBits.toNat

def pattern (v : Float32) : Nat :=
  v.toBits.toNat % 0x80000000

def ofPattern (negative : Bool) (pattern : Nat) : Float32 :=
  Float32.ofBits (UInt32.ofNat (pattern + if negative then 0x80000000 else 0))

def ofInt (n : Int) : Float32 :=
  ofPattern (decide (n < 0)) (Layout.single.nearest n.natAbs 1)

/-- The single nearest to a double; NaN and the infinities are kept. -/
def ofDouble (v : Float) : Float32 :=
  if v.isNaN then Float32.ofBits 0x7FC00000
  else if !v.isFinite then ofPattern (Double.negative v) Layout.single.top
  else ofPattern (Double.negative v)
    (Layout.single.nearest (Double.units v) Layout.double.unitDenominator)

end Single

end GraphCalc
