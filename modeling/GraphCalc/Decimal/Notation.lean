/-
How numbers are written: positionally with the fewest digits, in scientific
notation with the fewest digits or a set number of places, and positionally
with a set number of places.
-/
import GraphCalc.Decimal.Shortest
namespace GraphCalc.Decimal

/-- Positional notation: zeros fill the places down to the unit, and a number
below one has a zero before the point. -/
def positional (d : Decimal) : List Char :=
  let digits := numeral d.coefficient
  let whole : Int := digits.length + d.exponent
  if 0 ≤ d.exponent then
    if d.coefficient = 0 then digits else digits ++ List.replicate d.exponent.toNat '0'
  else if whole ≤ 0 then
    '0' :: '.' :: (List.replicate (-whole).toNat '0' ++ digits)
  else digits.take whole.toNat ++ '.' :: digits.drop whole.toNat

/-- Scientific notation: one digit, the others after a point, and the power of
ten of the first digit, which has a sign only where it is negative. -/
def scientific (d : Decimal) : List Char :=
  let digits := numeral d.coefficient
  let power : Int := d.exponent + (digits.length - 1)
  let mantissa := match digits with
    | first :: second :: more => first :: '.' :: second :: more
    | short => short
  mantissa ++ 'e' :: integerNumeral power

/-- The digits of zero with a set number of places, in scientific notation. -/
def scientificZero (places : Nat) : List Char :=
  (if places = 0 then ['0'] else '0' :: '.' :: List.replicate places '0') ++ ['e', '0']

end GraphCalc.Decimal

namespace GraphCalc

/-- A minus sign for a negative number, negative zero included. -/
def signed (negative : Bool) (magnitude : List Char) : List Char :=
  if negative then '-' :: magnitude else magnitude

namespace Double

/-- The text of a number: the words for NaN and the infinities, else the sign
and the magnitude. -/
def textWith (magnitude : Float → List Char) (v : Float) : List Char :=
  if v.isNaN then ['N', 'a', 'N']
  else signed (negative v) (if v.isFinite then magnitude v else ['i', 'n', 'f'])

/-- The fewest digits that read back. -/
def shortest (v : Float) : Decimal :=
  Layout.double.shortest (pattern v)

/-- Positional notation with the fewest digits that read back. -/
def plainText (v : Float) : List Char :=
  textWith (fun v => (shortest v).positional) v

/-- Scientific notation with the fewest digits that read back. -/
def scientificText (v : Float) : List Char :=
  textWith (fun v => (shortest v).scientific) v

/-- Scientific notation with a set number of places, rounded from the exact
value with a tie to the even digit. -/
def scientificPlaces (places : Nat) (v : Float) : List Char :=
  textWith (fun v =>
    if units v = 0 then Decimal.scientificZero places
    else (Decimal.significant (places + 1) (units v)
      Layout.double.unitDenominator).scientific) v

/-- Positional notation with a set number of places, rounded in the same way. -/
def fixedPlaces (places : Nat) (v : Float) : List Char :=
  textWith (fun v =>
    (Decimal.places places (units v) Layout.double.unitDenominator).positional) v

/-- The notation of a bound in the journal: positional with at least one place
from `10 ^ (-4)` up to `10 ^ 16`, and scientific elsewhere. -/
def pointedText (v : Float) : List Char :=
  let magnitude := v.abs
  if v != 0 && magnitude < 1e-4 || 1e16 ≤ magnitude then scientificText v
  else if isWhole v then plainText v ++ ['.', '0'] else plainText v

/-- A number rounded to a count of significant digits; zero and the numbers
that are not finite are kept, and no count is taken below one. -/
def roundSignificant (digits : Nat) (v : Float) : Float :=
  if v == 0 || !v.isFinite then v
  else (Decimal.significant (max 1 digits) (units v)
    Layout.double.unitDenominator).toDouble (negative v)

end Double

namespace Single

/-- The text of a number: the words for NaN and the infinities, else the sign
and the magnitude. -/
def textWith (magnitude : Decimal → List Char) (v : Float32) : List Char :=
  if v.isNaN then ['N', 'a', 'N']
  else signed (negative v)
    (if v.isFinite then magnitude (Layout.single.shortest (pattern v)) else ['i', 'n', 'f'])

/-- Positional notation with the fewest digits that read back as a single. -/
def plainText (v : Float32) : List Char :=
  textWith Decimal.positional v

/-- Scientific notation with the fewest digits that read back as a single. -/
def scientificText (v : Float32) : List Char :=
  textWith Decimal.scientific v

end Single

end GraphCalc
