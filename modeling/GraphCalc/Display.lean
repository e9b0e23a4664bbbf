/-
How numbers and outcomes are shown.
-/
import GraphCalc.Decimal.Notation
import GraphCalc.Decimal.Reader
import GraphCalc.Compile
namespace GraphCalc.Display

def errorText : List Char :=
  ['E', 'r', 'r', 'o', 'r']

/-- Scientific notation with a set number of places and a sign on every
exponent. -/
def exponential (places : Nat) (v : Float) : List Char :=
  let text := Double.scientificPlaces places v
  let mantissa := text.takeWhile (fun c => c != 'e')
  match text.drop mantissa.length with
  | 'e' :: '-' :: power => mantissa ++ 'e' :: '-' :: power
  | 'e' :: power => mantissa ++ 'e' :: '+' :: power
  | _ => text

/-- The text of a result.  Numbers from `10 ^ 12` up and those below
`10 ^ (-10)` are in exponential notation with six places, whole numbers are
without a point, and the others have at most twelve significant digits. -/
def number (v : Float) : List Char :=
  if !v.isFinite then errorText
  else if 1e12 ≤ v.abs || (v.abs < 1e-10 && v != 0.0) then exponential 6 v
  else if Double.isWhole v then integerNumeral (Double.truncate v)
  else Double.plainText (Double.roundSignificant 12 v)

def outcome : Outcome → List Char
  | .value v => number v
  | _ => errorText

/-- The bytes of a character in the encoding of texts. -/
def byteSize (text : List Char) : Nat :=
  (text.flatMap String.utf8EncodeChar).length

def dropEnd (text : List Char) (c : Char) : List Char :=
  (text.reverse.dropWhile (fun last => last = c)).reverse

/-- The text of an operand that is being typed: as it stands, unless it is very
large, very small, or has more than ten decimals. -/
def operand (text : List Char) : List Char :=
  if text = errorText then text
  else
    match Double.read? text with
    | none => ['0']
    | some v =>
        if !v.isFinite then errorText
        else if 1e12 < v.abs || (v != 0.0 && v.abs < 1e-10) then exponential 6 v
        else if 10 < byteSize ((text.dropWhile (fun c => c != '.')).drop 1) then
          dropEnd (dropEnd (Double.fixedPlaces 10 v) '0') '.'
        else text

end GraphCalc.Display
