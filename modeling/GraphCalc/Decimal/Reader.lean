/-
Reading decimal numbers.  A mantissa has digits with at most one point and at
least one digit; an exponent may follow.  A signed number may also be one of
the words for infinity and NaN, in any case.
-/
import GraphCalc.Decimal.Basic
namespace GraphCalc

/-- A letter of ASCII in lower case; other characters are kept. -/
def lowerCase (text : List Char) : List Char :=
  text.map Char.toLower

namespace Decimal

/-- The exponent at the end of a numeral: nothing, or `e`, an optional sign and
at least one digit. -/
def readExponent? (text : List Char) : Option Int :=
  match text with
  | [] => some 0
  | mark :: rest =>
      if mark = 'e' ∨ mark = 'E' then
        let (negative, digits) := match rest with
          | '-' :: digits => (true, digits)
          | '+' :: digits => (false, digits)
          | digits => (false, digits)
        if digits.isEmpty || !digits.all Char.isDigit then none
        else if negative then some (-(numeralValue digits : Int))
        else some (numeralValue digits)
      else none

/-- The decimal that a whole text stands for. -/
def read? (text : List Char) : Option Decimal :=
  let whole := text.takeWhile Char.isDigit
  let (fraction, rest) := match text.dropWhile Char.isDigit with
    | '.' :: rest => (rest.takeWhile Char.isDigit, rest.dropWhile Char.isDigit)
    | rest => ([], rest)
  if whole.isEmpty && fraction.isEmpty then none
  else (readExponent? rest).map (fun exponent =>
    ⟨numeralValue (whole ++ fraction), exponent - fraction.length⟩)

end Decimal

namespace Double

/-- The double that a text without sign stands for. -/
def readMagnitude? (negative : Bool) (text : List Char) : Option Float :=
  let word := lowerCase text
  if word = ['i', 'n', 'f'] ∨ word = ['i', 'n', 'f', 'i', 'n', 'i', 't', 'y'] then
    some (ofPattern negative Layout.double.top)
  else if word = ['n', 'a', 'n'] then some (0.0 / 0.0)
  else (Decimal.read? text).map (Decimal.toDouble negative)

/-- The double that a whole text stands for: an optional sign, then a decimal
or one of the words for infinity and NaN. -/
def read? (text : List Char) : Option Float :=
  match text with
  | '-' :: rest => readMagnitude? true rest
  | '+' :: rest => readMagnitude? false rest
  | _ => readMagnitude? false text

end Double

end GraphCalc
