/-
The three tabs of the application.
-/
namespace GraphCalc

/-- The tabs. -/
inductive Tab where
  | standard
  | scientific
  | plot
deriving Repr, DecidableEq

namespace Tab

def all : List Tab :=
  [standard, scientific, plot]

def title : Tab → String
  | standard => "Standard"
  | scientific => "Scientifique"
  | plot => "Grapheur"

/-- The name of a tab in a saved session. -/
def name : Tab → String
  | standard => "Standard"
  | scientific => "Scientifique"
  | plot => "Graphique"

def ofName? (name : List Char) : Option Tab :=
  all.find? (fun tab => tab.name.toList == name)

theorem ofName?_name (tab : Tab) : ofName? tab.name.toList = some tab := by
  cases tab <;> decide

end Tab

end GraphCalc
