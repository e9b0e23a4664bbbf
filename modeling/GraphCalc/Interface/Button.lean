/-
The buttons that are shown, in the order in which they are laid out.
-/
import GraphCalc.App
namespace GraphCalc.Interface

/-- A key of the pads, which share most of their keys. -/
inductive PadKey where
  | digit (c : Char)
  | point
  | equals
  | clear
  | backspace
  | negate
  | percent
  | operation (op : Standard.Op)
  | operator (op : BinaryOp)
  | function (key : Scientific.FunctionKey)
  | constant (key : Scientific.Constant)
  | openParen
  | closeParen
deriving Repr, DecidableEq

namespace PadKey

/-- What a key asks of the standard calculator, if it is one of its keys. -/
def standard? : PadKey → Option Standard.Action
  | digit c => some (.digit c)
  | point => some .point
  | equals => some .equals
  | clear => some .clear
  | backspace => some .backspace
  | negate => some .negate
  | percent => some .percent
  | operation op => some (.operator op)
  | operator _ | function _ | constant _ | openParen | closeParen => none

/-- What a key asks of the scientific pad, if it is one of its keys. -/
def scientific? : PadKey → Option Scientific.Action
  | digit c => some (.digit c)
  | point => some .point
  | equals => some .equals
  | clear => some .clear
  | backspace => some .backspace
  | negate => some .negate
  | operator op => some (.operator op)
  | function key => some (.function key)
  | constant key => some (.constant key)
  | openParen => some .openParen
  | closeParen => some .closeParen
  | percent | operation _ => none

/-- What a key asks of the application while a tab is shown. -/
def actions (tab : Tab) (key : PadKey) : List App.Action :=
  match tab with
  | .standard => (key.standard?.map App.Action.standard).toList
  | .scientific => (key.scientific?.map App.Action.scientific).toList
  | .plot => []

end PadKey

/-- A button.  Pressing it asks for its actions. -/
structure Button where
  label : String
  actions : List App.Action
deriving Repr, DecidableEq

namespace Button

def tabs : List Button :=
  Tab.all.map (fun tab => ⟨tab.title, [.select tab]⟩)

/-- The rows of keys of a pad, one after the other. -/
def pad (tab : Tab) (rows : List (List (String × PadKey))) : List Button :=
  rows.flatten.map (fun key => ⟨key.1, key.2.actions tab⟩)

def standardPad : List Button :=
  pad .standard [
    [("C", .clear), ("±", .negate), ("%", .percent), ("÷", .operation .divide)],
    [("7", .digit '7'), ("8", .digit '8'), ("9", .digit '9'), ("×", .operation .times)],
    [("4", .digit '4'), ("5", .digit '5'), ("6", .digit '6'), ("−", .operation .minus)],
    [("1", .digit '1'), ("2", .digit '2'), ("3", .digit '3'), ("+", .operation .plus)],
    [("0", .digit '0'), (".", .point), ("⌫", .backspace), ("=", .equals)]]

/-- What the key for an angle mode asks for: nothing while this mode is set. -/
def modeActions (scientific : Scientific) (mode : AngleMode) : List App.Action :=
  if scientific.mode = mode then [] else [.scientific (.setMode mode)]

def scientificPad (scientific : Scientific) : List Button :=
  [⟨"DEG", modeActions scientific .degrees⟩, ⟨"RAD", modeActions scientific .radians⟩] ++
  pad .scientific [
    [("sin", .function .sin), ("cos", .function .cos), ("tan", .function .tan),
      ("log", .function .log), ("ln", .function .ln)],
    [("asin", .function .asin), ("acos", .function .acos), ("atan", .function .atan),
      ("√", .function .sqrt), ("x²", .function .square)],
    [("n!", .function .factorial), ("π", .constant .pi), ("e", .constant .euler),
      ("(", .openParen), (")", .closeParen)],
    [("C", .clear), ("⌫", .backspace), ("±", .negate), ("^", .operator .pow),
      ("÷", .operator .div)],
    [("7", .digit '7'), ("8", .digit '8'), ("9", .digit '9'), ("×", .operator .mul)],
    [("4", .digit '4'), ("5", .digit '5'), ("6", .digit '6'), ("−", .operator .sub)],
    [("1", .digit '1'), ("2", .digit '2'), ("3", .digit '3'), ("+", .operator .add)],
    [("0", .digit '0'), (".", .point), ("=", .equals)]]

/-- The buttons of the plot tab; each function has one that removes it. -/
def plotButtons (tab : PlotTab) : List Button :=
  [⟨"Tracer", [.plot .submit]⟩, ⟨"Effacer tout", [.plot .clear]⟩,
    ⟨"Réinitialiser", [.plot .reset]⟩] ++
  (List.range tab.functions.length).map (fun index => ⟨"✕", [.plot (.remove index)]⟩)

def shown (app : App) : List Button :=
  tabs ++
    match app.tab with
    | .standard => standardPad
    | .scientific => scientificPad app.scientific
    | .plot => plotButtons app.plot

/-- The button with this label that comes after `rank` others of its label. -/
def find? (app : App) (label : String) (rank : Nat) : Option Button :=
  ((shown app).filter (fun button => button.label = label))[rank]?

end Button

end GraphCalc.Interface
