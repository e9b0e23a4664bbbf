/-
The settings of the application, read from a settings text when it starts.
-/
import GraphCalc.Event
import GraphCalc.Viewport
namespace GraphCalc

/-- What the user may set. -/
structure Settings where
  /-- the viewport of the first start and of every reset -/
  view : Viewport
  /-- the angle mode of the scientific pad -/
  mode : AngleMode
  /-- the width of the curves -/
  stroke : Float32
  /-- the tab of the last session is shown again -/
  restoreTab : Bool
deriving Repr, DecidableEq

namespace Settings

/-- The width of the curves where nothing else is set. -/
def standardStroke : Float32 :=
  2.0

/-- The settings where nothing is set. -/
def standard : Settings :=
  ⟨Viewport.standard, .degrees, standardStroke, true⟩

def DrawableStroke (width : Float32) : Prop :=
  width.isFinite = true ∧ 0 < width

instance (width : Float32) : Decidable (DrawableStroke width) :=
  inferInstanceAs (Decidable (_ ∧ _))

theorem standardStroke_drawable : DrawableStroke standardStroke := by
  decide

def readMode? (dialect : Data.Dialect) (data : Data) : Option AngleMode := do
  let name ← data.asChoice? dialect
  if name = AngleMode.radians.name.toList then some .radians
  else if name = AngleMode.degrees.name.toList then some .degrees
  else none

def fieldNames : List (List Char) :=
  ["fenetre_defaut".toList, "mode_angle".toList, "epaisseur_trait".toList,
    "restaurer_onglet".toList]

/-- The settings of a record, with the width as it is given. -/
def ofData? (dialect : Data.Dialect) (data : Data) : Option Settings := do
  match ← data.fields? dialect fieldNames with
  | [view, mode, stroke, restoreTab] =>
      return {
        view := ← Data.orDefault (Viewport.ofData? dialect) standard.view view
        mode := ← Data.orDefault (readMode? dialect) standard.mode mode
        stroke := ← Data.orDefault Data.asSingle? standard.stroke stroke
        restoreTab := ← Data.orDefault Data.asBool? standard.restoreTab restoreTab }
  | _ => none

/-- The settings with the standard width in the place of one that cannot be
drawn. -/
def corrected (settings : Settings) : Settings :=
  if DrawableStroke settings.stroke then settings
  else { settings with stroke := standardStroke }

section Reader
variable (reader : Data.Reader)

/-- The settings as a text gives them. -/
def given? (text : List Char) : Option Settings := do
  ofData? reader.dialect (← reader.read? text)

/-- The settings of a text. -/
def read? (text : List Char) : Option Settings :=
  (given? reader text).map corrected

def readEvents (text : List Char) : List Event :=
  match given? reader text with
  | some settings =>
      if DrawableStroke settings.stroke then [] else [.strokeCorrected settings.stroke]
  | none => []

end Reader

theorem corrected_drawable (settings : Settings) :
    DrawableStroke settings.corrected.stroke := by
  unfold corrected
  split
  · assumption
  · exact standardStroke_drawable

end Settings

end GraphCalc
