/-
What is kept from one session to the next, as a structured value and as a stored text.
-/
import GraphCalc.PlotList
import GraphCalc.Tab
import GraphCalc.Viewport
namespace GraphCalc

/-! ### The list of functions as a structured value -/

namespace Colour

def fieldNames : List (List Char) :=
  [['r'], ['g'], ['b']]

def ofData? (dialect : Data.Dialect) (data : Data) : Option Colour := do
  match ← data.fields? dialect fieldNames with
  | [red, green, blue] =>
      return ⟨← Data.required Data.asByte? red, ← Data.required Data.asByte? green,
        ← Data.required Data.asByte? blue⟩
  | _ => none

def data (colour : Colour) : Data :=
  Data.ofFields fieldNames
    [.integer colour.red.toNat, .integer colour.green.toNat, .integer colour.blue.toNat]

end Colour

namespace Plotted

def fieldNames : List (List Char) :=
  ["texte".toList, "couleur".toList]

def ofData? (dialect : Data.Dialect) (data : Data) : Option Plotted := do
  match ← data.fields? dialect fieldNames with
  | [text, colour] =>
      return ⟨← Data.required Data.asText? text,
        ← Data.required (Colour.ofData? dialect) colour⟩
  | _ => none

def data (plotted : Plotted) : Data :=
  Data.ofFields fieldNames [.text plotted.text, plotted.colour.data]

end Plotted

namespace PlotList

def fieldNames : List (List Char) :=
  ["entrees".toList]

def ofData? (dialect : Data.Dialect) (data : Data) : Option PlotList := do
  match ← data.fields? dialect fieldNames with
  | [entries] => (← Data.required Data.asList? entries).mapM (Plotted.ofData? dialect)
  | _ => none

def data (list : PlotList) : Data :=
  Data.ofFields fieldNames [.list (list.map Plotted.data)]

end PlotList

/-! ### Sessions -/

/-- A saved session. -/
structure Session where
  tab : Tab
  view : Option Viewport
  functions : PlotList
deriving Repr, DecidableEq

namespace Session

/-- The session of someone who has saved nothing. -/
def empty : Session :=
  ⟨.standard, none, []⟩

def fieldNames : List (List Char) :=
  ["onglet".toList, "fenetre".toList, "fonctions".toList]

section Dialect
variable (dialect : Data.Dialect)

def readTab? (data : Data) : Option Tab := do
  Tab.ofName? (← data.asChoice? dialect)

def readView? (data : Data) : Option (Option Viewport) := do
  match ← data.asOption? dialect with
  | none => return none
  | some content => return some (← Viewport.ofData? dialect content)

/-- The session of a record.  Each field may be missing. -/
def ofData? (data : Data) : Option Session := do
  match ← data.fields? dialect fieldNames with
  | [tab, view, functions] =>
      return {
        tab := ← Data.orDefault (readTab? dialect) empty.tab tab
        view := ← Data.orDefault (readView? dialect) empty.view view
        functions := ← Data.orDefault (PlotList.ofData? dialect) empty.functions functions }
  | _ => none

def data (session : Session) : Data :=
  Data.ofFields fieldNames
    [Data.ofChoice dialect session.tab.name.toList,
      Data.ofOption dialect (session.view.map Viewport.data), session.functions.data]

end Dialect

section Codec
variable (codec : Data.Codec)

/-- The stored text of a session. -/
def text (session : Session) : List Char :=
  codec.write (session.data codec.dialect)

def read? (text : List Char) : Option Session := do
  ofData? codec.dialect (← codec.read? text)

end Codec

end Session

end GraphCalc
