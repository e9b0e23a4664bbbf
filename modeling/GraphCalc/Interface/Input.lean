/-
What a user does to the application, step after step: frames of keyboard events while
no text field is edited, keys of the pads, steps of the plot tab and the choice of a tab.
-/
import GraphCalc.Interface.Button
import GraphCalc.Interface.Screen
import GraphCalc.Interface.Keyboard
namespace GraphCalc

namespace Interface

/-- A step of the user. -/
inductive Input where
  | frame (events : List KeyEvent)
  | pad (key : PadKey)
  /-- a key for the angle mode -/
  | mode (mode : AngleMode)
  | plot (action : PlotTab.Action)
  | select (tab : Tab)
deriving Repr, DecidableEq

namespace Input

/-- What an input asks of the application.  The keys for the angle mode belong to the
scientific tab, and what the plot tab offers to that tab: while another one is shown they
are not there. -/
def actions (app : App) : Input → List App.Action
  | .frame events => frameActions app.tab events
  | .pad key => key.actions app.tab
  | .mode wanted =>
      match app.tab with
      | .scientific => Button.modeActions app.scientific wanted
      | .standard | .plot => []
  | .plot action =>
      match app.tab with
      | .plot => [.plot action]
      | .standard | .scientific => []
  | .select tab => [.select tab]

end Input

end Interface

namespace App
open Interface

def receive (app : App) (input : Input) : App :=
  app.run (input.actions app)

def receiveAll (app : App) (inputs : List Input) : App :=
  inputs.foldl receive app

end App

namespace Interface

/-! ### Buttons and text fields are inputs -/

/-- Whatever the buttons that are shown ask for, an input asks for. -/
theorem Button.actions_eq_of_mem_shown {app : App} {button : Button}
    (h : button ∈ Button.shown app) : ∃ input : Input, button.actions = input.actions app := by
  rw [Button.shown, List.mem_append] at h
  rcases h with htabs | hown
  · obtain ⟨tab, -, rfl⟩ := List.mem_map.mp htabs
    exact ⟨.select tab, rfl⟩
  · cases htab : app.tab with
    | standard =>
        rw [htab] at hown
        obtain ⟨⟨label, key⟩, -, rfl⟩ := List.mem_map.mp hown
        exact ⟨.pad key, by rw [Input.actions, htab]⟩
    | scientific =>
        rw [htab] at hown
        rcases List.mem_append.mp hown with hmode | hkey
        · simp only [List.mem_cons, List.not_mem_nil, or_false] at hmode
          rcases hmode with rfl | rfl
          · exact ⟨.mode .degrees, by rw [Input.actions, htab]⟩
          · exact ⟨.mode .radians, by rw [Input.actions, htab]⟩
        · obtain ⟨⟨label, key⟩, -, rfl⟩ := List.mem_map.mp hkey
          exact ⟨.pad key, by rw [Input.actions, htab]⟩
    | plot =>
        rw [htab] at hown
        have hplot : ∃ action : PlotTab.Action, button.actions = [.plot action] := by
          rcases List.mem_append.mp hown with hfixed | hremove
          · simp only [List.mem_cons, List.not_mem_nil, or_false] at hfixed
            rcases hfixed with rfl | rfl | rfl
            · exact ⟨.submit, rfl⟩
            · exact ⟨.clear, rfl⟩
            · exact ⟨.reset, rfl⟩
          · obtain ⟨index, -, rfl⟩ := List.mem_map.mp hremove
            exact ⟨.remove index, rfl⟩
        obtain ⟨action, haction⟩ := hplot
        exact ⟨.plot action, by rw [Input.actions, htab, haction]⟩

/-- Entries of text fields are made while the plot tab is shown, and are steps of it. -/
theorem Field.actions_eq_of_find? {app : App} {index : Nat} {field : Field}
    (h : Field.find? app index = some field) (text : List Char) (ending? : Option Ending) :
    app.tab = .plot ∧
      ∃ steps : List PlotTab.Action, field.actions text ending? = steps.map .plot := by
  refine ⟨?_, ?_⟩
  · rw [Field.find?] at h
    split at h
    · assumption
    · contradiction
  · match field, ending? with
    | .input, some .enter => exact ⟨[.typeInput text, .submit], rfl⟩
    | .input, some .tab => exact ⟨[.typeInput text], rfl⟩
    | .input, none => exact ⟨[.typeInput text], rfl⟩
    | .bound side, some _ => exact ⟨[.typeField side text, .applyBounds], rfl⟩
    | .bound side, none => exact ⟨[.typeField side text], rfl⟩

end Interface

end GraphCalc
