/-
The plot tab: the list of functions, the viewport, the text field for a new
function and those for the four bounds.
-/
import GraphCalc.Decimal.Reader
import GraphCalc.Event
namespace GraphCalc

/-- The four bounds by name. -/
inductive Bound where
  | xMin
  | xMax
  | yMin
  | yMax
deriving Repr, DecidableEq

/-- The texts of the four fields. -/
structure BoundFields where
  xMin : List Char
  xMax : List Char
  yMin : List Char
  yMax : List Char
deriving Repr, DecidableEq

namespace BoundFields

/-- The fields that show a viewport. -/
def ofViewport (view : Viewport) : BoundFields :=
  ⟨Double.plainText view.xMin, Double.plainText view.xMax,
    Double.plainText view.yMin, Double.plainText view.yMax⟩

def set (fields : BoundFields) (bound : Bound) (text : List Char) : BoundFields :=
  match bound with
  | .xMin => { fields with xMin := text }
  | .xMax => { fields with xMax := text }
  | .yMin => { fields with yMin := text }
  | .yMax => { fields with yMax := text }

/-- The number of a field; one without a finite number stands for the default. -/
def readField (text : List Char) (default : Float) : Float :=
  match Double.read? (Text.trim text) with
  | some v => if v.isFinite then v else default
  | none => default

/-- The bounds that the fields ask for. -/
def read (fields : BoundFields) (default : Viewport) : Viewport :=
  ⟨readField fields.xMin default.xMin, readField fields.xMax default.xMax,
    readField fields.yMin default.yMin, readField fields.yMax default.yMax⟩

end BoundFields

/-- The state of the plot tab. -/
structure PlotTab where
  functions : PlotList
  view : Viewport
  /-- the field for a new function -/
  input : List Char
  fields : BoundFields
  /-- the last warning -/
  message : Option String
deriving Repr, DecidableEq

namespace PlotTab

/-- What can be asked of the tab. -/
inductive Action where
  | typeInput (text : List Char)
  | typeField (bound : Bound) (text : List Char)
  /-- gives the text of the field to the list -/
  | submit
  | remove (index : Nat)
  | clear
  /-- takes the bounds of the fields -/
  | applyBounds
  /-- goes back to the default viewport -/
  | reset
deriving Repr, DecidableEq

def start (view : Viewport) (functions : PlotList) : PlotTab :=
  ⟨functions, view, [], BoundFields.ofViewport view, none⟩

/-- What becomes of the text in the field. -/
def submission (tab : PlotTab) : Addition :=
  tab.functions.addition tab.input

/-- The warning about a submitted text. -/
def submissionMessage (text : List Char) : Addition → Option String
  | .added =>
      match compile text with
      | .ok _ => none
      | .error e =>
          some ("« " ++ String.ofList text ++ " » ne sera pas tracée : " ++ e.message)
  | .duplicate => some ("« " ++ String.ofList text ++ " » est déjà tracée")
  | .blank => none

/-- Gives the text of the field to the list and empties the field. -/
def submit (tab : PlotTab) : PlotTab :=
  { tab with
    functions := tab.functions.add tab.input
    input := []
    message := submissionMessage tab.input tab.submission }

/-- The bounds of the fields are valid. -/
def acceptsBounds (tab : PlotTab) (default : Viewport) : Bool :=
  decide (tab.fields.read default).Valid

/-- Takes the bounds of the fields as a whole, or leaves all as it is. -/
def applyBounds (tab : PlotTab) (default : Viewport) : PlotTab :=
  if tab.acceptsBounds default then
    { tab with view := tab.fields.read default, message := none }
  else { tab with message := some Viewport.refusal }

/-- The state after an action; `default` is the viewport of the settings. -/
def step (default : Viewport) (tab : PlotTab) : Action → PlotTab
  | .typeInput text => { tab with input := text }
  | .typeField bound text => { tab with fields := tab.fields.set bound text }
  | .submit => tab.submit
  | .remove index => { tab with functions := tab.functions.remove index, message := none }
  | .clear => { tab with functions := [], input := [], message := none }
  | .applyBounds => tab.applyBounds default
  | .reset =>
      { tab with view := default, fields := BoundFields.ofViewport default, message := none }

def events (default : Viewport) (tab : PlotTab) : Action → List Event
  | .submit =>
      (if tab.submission = .added then compileEvents tab.input else []) ++
        [.submitted tab.input tab.submission]
  | .applyBounds =>
      if tab.acceptsBounds default then [] else [.boundsRefused (tab.fields.read default)]
  | _ => []

end PlotTab

end GraphCalc
