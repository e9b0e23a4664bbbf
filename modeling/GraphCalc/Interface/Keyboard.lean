/-
The keyboard: what the events of one frame ask of the application while no
text field is being edited.
-/
import GraphCalc.App
namespace GraphCalc.Interface

/-- A keyboard event. -/
inductive KeyEvent where
  | typed (text : List Char)
  | enter
  | backspace
  | escape
  /-- any other key, and every key that is let go -/
  | other
deriving Repr, DecidableEq

/-- What a typed character asks of the tab that is shown. -/
def characterActions (tab : Tab) (c : Char) : List App.Action :=
  match tab with
  | .standard => [((Standard.ofKey? c).map App.Action.standard).getD (.ignore c)]
  | .scientific => [((Scientific.ofKey? c).map App.Action.scientific).getD (.ignore c)]
  | .plot => []

/-- What an event asks of the tab that is shown. -/
def KeyEvent.actions (tab : Tab) : KeyEvent → List App.Action
  | typed text => text.flatMap (characterActions tab)
  | enter =>
      match tab with
      | .standard => [.standard .equals]
      | .scientific => [.scientific .equals]
      | .plot => []
  | backspace =>
      match tab with
      | .standard => [.standard .backspace]
      | .scientific => [.scientific .backspace]
      | .plot => []
  | escape | other => []

/-- What the events of a frame ask of the application.  Escape comes first,
wherever it stands among them, and counts once. -/
def frameActions (tab : Tab) (events : List KeyEvent) : List App.Action :=
  (if .escape ∈ events then [App.Action.escape] else []) ++
    events.flatMap (KeyEvent.actions tab)

/-- While the plot tab is shown, a frame asks for nothing but to clear it. -/
theorem frameActions_plot (events : List KeyEvent) :
    frameActions .plot events = if .escape ∈ events then [.escape] else [] := by
  have hnone : events.flatMap (KeyEvent.actions .plot) = [] := by
    rw [List.flatMap_eq_nil_iff]
    intro event _
    cases event <;> simp [KeyEvent.actions, characterActions]
  simp [frameActions, hnone]

end GraphCalc.Interface
