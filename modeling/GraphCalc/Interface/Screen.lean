/-
What a tab shows beside its buttons: texts, and on the plot tab text fields with the keys
that end an entry.
-/
import GraphCalc.App
namespace GraphCalc.Interface

/-- What stands before each function of the list. -/
def functionMark : List Char :=
  ['■']

/-- The texts of the plot tab: the names of its fields, the warning, and the
functions. -/
def plotTexts (tab : PlotTab) : List (List Char) :=
  ["f(x) =".toList, "x min".toList, "x max".toList, "y min".toList, "y max".toList] ++
    tab.message.toList.map String.toList ++
    if tab.functions.isEmpty then ["Aucune fonction tracée".toList]
    else tab.functions.flatMap (fun plotted => [functionMark, plotted.text])

def screenTexts (app : App) : List (List Char) :=
  match app.tab with
  | .standard => [app.standard.expression, app.standard.display]
  | .scientific => [app.scientific.line, app.scientific.display]
  | .plot => plotTexts app.plot

/-! ### Text fields -/

/-- The text fields of the plot tab. -/
inductive Field where
  /-- the field for a new function -/
  | input
  | bound (side : Bound)
deriving Repr, DecidableEq

/-- The keys that end an entry. -/
inductive Ending where
  | enter
  | tab
deriving Repr, DecidableEq

namespace Field

def all : List Field :=
  [input, bound .xMin, bound .xMax, bound .yMin, bound .yMax]

/-- What an entry asks of the plot tab.  A function is plotted by Enter alone;
the bounds are taken as soon as one of their fields is left. -/
def actions (text : List Char) : Field → Option Ending → List App.Action
  | .input, some .enter => [.plot (.typeInput text), .plot .submit]
  | .input, _ => [.plot (.typeInput text)]
  | .bound side, some _ => [.plot (.typeField side text), .plot .applyBounds]
  | .bound side, none => [.plot (.typeField side text)]

/-- The field at an index, if the plot tab is shown. -/
def find? (app : App) (index : Nat) : Option Field :=
  match app.tab with
  | .plot => all[index]?
  | _ => none

end Field

end GraphCalc.Interface
