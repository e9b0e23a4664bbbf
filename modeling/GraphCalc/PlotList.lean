/-
The list of the plotted functions.  Each has a colour of its own, taken from a
palette in turn; no text is listed twice by adding it.
-/
import GraphCalc.Text
namespace GraphCalc

/-- A colour by its three components. -/
structure Colour where
  red : UInt8
  green : UInt8
  blue : UInt8
deriving Repr, DecidableEq

namespace Colour

def hexPair (component : UInt8) : List Char :=
  [Nat.digitChar (component.toNat / 16), Nat.digitChar (component.toNat % 16)]

/-- The six hexadecimal digits of a colour. -/
def hex (colour : Colour) : List Char :=
  hexPair colour.red ++ hexPair colour.green ++ hexPair colour.blue

/-- The colours of the curves, in the order in which they are given out: blue,
green, red, orange, violet, teal, pink and cyan. -/
def palette : List Colour :=
  [⟨0x4A, 0x90, 0xD9⟩, ⟨0x2E, 0xCC, 0x71⟩, ⟨0xE7, 0x4C, 0x3C⟩, ⟨0xF3, 0x9C, 0x12⟩,
    ⟨0x9B, 0x59, 0xB6⟩, ⟨0x1A, 0xBC, 0x9C⟩, ⟨0xE9, 0x1E, 0x63⟩, ⟨0x00, 0xBC, 0xD4⟩]

/-- The colour given out when `count` functions are listed. -/
def ofCount (count : Nat) : Colour :=
  palette.get ⟨count % palette.length, Nat.mod_lt count (by decide)⟩

/-- The place of a colour in the palette. -/
def rank? (colour : Colour) : Option Nat :=
  palette.findIdx? (fun other => other = colour)

end Colour

/-- A function of the list, by its text. -/
structure Plotted where
  text : List Char
  colour : Colour
deriving Repr, DecidableEq

/-- The plotted functions, in the order in which they were added. -/
abbrev PlotList := List Plotted

/-- What becomes of a text that is to be plotted. -/
inductive Addition where
  | added
  | blank
  | duplicate
deriving Repr, DecidableEq

namespace PlotList

def texts (list : PlotList) : List (List Char) :=
  list.map Plotted.text

/-- What becomes of a text: blank ones and listed ones are not added. -/
def addition (list : PlotList) (text : List Char) : Addition :=
  if Text.allBlank text then .blank
  else if text ∈ list.texts then .duplicate
  else .added

/-- The list after a text was given to it. -/
def add (list : PlotList) (text : List Char) : PlotList :=
  match list.addition text with
  | .added => list ++ [⟨text, Colour.ofCount list.length⟩]
  | .blank | .duplicate => list

/-- The list without the function at an index; an index beyond the end removes
nothing. -/
def remove (list : PlotList) (index : Nat) : PlotList :=
  list.eraseIdx index

end PlotList

end GraphCalc
