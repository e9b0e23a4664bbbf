/-
Tabs do not interfere.  Every action of a pad has one key, and what is typed asks for what
the button asks that it stands for.  An input reaches nothing but the tab that is shown, so
each tab ends in the state that the inputs made while it was shown give it by themselves.
-/
import GraphCalc.Interface.Input
import GraphCalc.Proofs.ValidViewports
import Mathlib.Tactic.IntervalCases
namespace GraphCalc

namespace Interface

/-! ### Which key stands for an action -/

namespace PadKey

def ofStandard : Standard.Action → PadKey
  | .digit c => digit c
  | .point => point
  | .operator op => operation op
  | .equals => equals
  | .negate => negate
  | .percent => percent
  | .backspace => backspace
  | .clear => clear

/-- A key asks for an action of the standard calculator exactly if it is the key for it. -/
theorem standard?_eq_some_iff {key : PadKey} {action : Standard.Action} :
    key.standard? = some action ↔ key = ofStandard action := by
  cases key <;> cases action <;> simp [standard?, ofStandard]

/-- The key for an action of the scientific pad; the angle mode has keys of its own. -/
def ofScientific? : Scientific.Action → Option PadKey
  | .digit c => some (digit c)
  | .point => some point
  | .operator op => some (operator op)
  | .function key => some (function key)
  | .constant key => some (constant key)
  | .openParen => some openParen
  | .closeParen => some closeParen
  | .equals => some equals
  | .negate => some negate
  | .backspace => some backspace
  | .clear => some clear
  | .setMode _ => none

theorem scientific?_eq_some_iff {key : PadKey} {action : Scientific.Action} :
    key.scientific? = some action ↔ ofScientific? action = some key := by
  cases key <;> cases action <;> simp [scientific?, ofScientific?, eq_comm]

end PadKey

namespace Button

/-- The characters that are typed for a button, with its label. -/
def typed : List (Char × String) :=
  [('0', "0"), ('1', "1"), ('2', "2"), ('3', "3"), ('4', "4"), ('5', "5"), ('6', "6"),
    ('7', "7"), ('8', "8"), ('9', "9"), ('.', "."), ('=', "="), ('c', "C"), ('C', "C"),
    ('+', "+"), ('-', "−"), ('*', "×"), ('/', "÷"), ('^', "^"), ('%', "%"), ('(', "("),
    (')', ")")]

theorem mem_typed_of_isDigit {c : Char} (h : c.isDigit = true) : c ∈ typed.map Prod.fst := by
  have hrange : 48 ≤ c.toNat ∧ c.toNat ≤ 57 := by
    simpa [Char.isDigit, UInt32.le_iff_toNat_le] using h
  obtain ⟨hlower, hupper⟩ := hrange
  rw [← Char.ofNat_toNat c]
  interval_cases c.toNat <;> decide

/-- Characters and the buttons they are typed for: a character asks for what its button
asks. -/
theorem ofKey?_iff_of_buttons {α : Type} {ofKey? : Char → Option α} {ask : α → App.Action}
    (hask : ask.Injective) {buttons : List Button}
    (htyped : ∀ c : Char, ofKey? c ≠ none → c ∈ typed.map Prod.fst)
    (hlabel : ∀ key ∈ typed, ofKey? key.1 ≠ none → ∃ button ∈ buttons, button.label = key.2)
    (hpress : ∀ button ∈ buttons, ∀ key ∈ typed, button.label = key.2 →
      button.actions = ((ofKey? key.1).map ask).toList) {c : Char} {action : α} :
    ofKey? c = some action ↔
      ∃ button ∈ buttons, (c, button.label) ∈ typed ∧ button.actions = [ask action] := by
  constructor
  · intro hkey
    have hsome : ofKey? c ≠ none := by simp [hkey]
    obtain ⟨⟨_, label⟩, hmem, rfl⟩ := List.mem_map.mp (htyped c hsome)
    obtain ⟨button, hbutton, rfl⟩ := hlabel _ hmem hsome
    refine ⟨button, hbutton, hmem, ?_⟩
    rw [hpress button hbutton _ hmem rfl, hkey]
    rfl
  · rintro ⟨button, hbutton, hmem, hactions⟩
    have hsame := (hpress button hbutton _ hmem rfl).symm.trans hactions
    cases hkey : ofKey? c with
    | none => simp [hkey] at hsame
    | some other =>
        rw [hkey] at hsame
        exact congrArg some (hask (List.cons.inj hsame).1)

/-- A character asks of the standard calculator what the button asks that it is typed
for. -/
theorem standard_ofKey?_iff {c : Char} {action : Standard.Action} :
    Standard.ofKey? c = some action ↔
      ∃ button ∈ standardPad, (c, button.label) ∈ typed ∧
        button.actions = [.standard action] := by
  refine ofKey?_iff_of_buttons (fun _ _ => App.Action.standard.inj) (fun c hkey => ?_)
    (by decide +kernel) (by decide +kernel)
  by_cases hdigit : c.isDigit = true
  · exact mem_typed_of_isDigit hdigit
  · simp only [Standard.ofKey?, hdigit, Bool.false_eq_true, if_false] at hkey
    split at hkey
    all_goals first | contradiction | decide

/-- The same for the scientific pad, whatever its angle mode is. -/
theorem scientific_ofKey?_iff (scientific : Scientific) {c : Char}
    {action : Scientific.Action} :
    Scientific.ofKey? c = some action ↔
      ∃ button ∈ scientificPad scientific, (c, button.label) ∈ typed ∧
        button.actions = [.scientific action] := by
  refine ofKey?_iff_of_buttons (fun _ _ => App.Action.scientific.inj) (fun c hkey => ?_) ?_ ?_
  · by_cases hdigit : c.isDigit = true
    · exact mem_typed_of_isDigit hdigit
    · simp only [Scientific.ofKey?, hdigit, Bool.false_eq_true, if_false] at hkey
      split at hkey
      all_goals first | contradiction | decide
  · have hkeys : ∀ key ∈ typed, Scientific.ofKey? key.1 ≠ none →
        key.2 ∈ (scientificPad (Scientific.start .degrees)).map label := by
      decide +kernel
    intro key hmem hkey
    exact List.mem_map.mp (hkeys key hmem hkey)
  · -- no character is typed for the buttons of the angle modes
    have hmode : ∀ key ∈ typed, key.2 ≠ "DEG" ∧ key.2 ≠ "RAD" := by decide
    rw [scientificPad, List.forall_mem_append]
    refine ⟨fun button hbutton key hmem hlabel => ?_, by decide +kernel⟩
    simp only [List.mem_cons, List.not_mem_nil, or_false] at hbutton
    rcases hbutton with rfl | rfl
    · exact absurd hlabel.symm (hmode key hmem).1
    · exact absurd hlabel.symm (hmode key hmem).2

end Button

/-! ### What a frame means to a pad -/

/-- The keys of the keyboard that a pad takes. -/
structure PadKeyboard (α : Type) where
  character? : Char → Option α
  enter : α
  backspace : α
  escape : α

namespace PadKeyboard
variable {α : Type} (keyboard : PadKeyboard α)

/-- What an event asks of the pad; Escape is not among the events in their order. -/
def ofEvent : KeyEvent → List α
  | .typed text => text.filterMap keyboard.character?
  | .enter => [keyboard.enter]
  | .backspace => [keyboard.backspace]
  | .escape | .other => []

/-- What a frame asks of the pad: first Escape, once, if it is pressed in it. -/
def ofFrame (events : List KeyEvent) : List α :=
  (if .escape ∈ events then [keyboard.escape] else []) ++ events.flatMap keyboard.ofEvent

end PadKeyboard

end Interface

open Interface

def Standard.keyboard : PadKeyboard Standard.Action :=
  ⟨Standard.ofKey?, .equals, .backspace, .clear⟩

def Scientific.keyboard : PadKeyboard Scientific.Action :=
  ⟨Scientific.ofKey?, .equals, .backspace, .clear⟩

/-! ### What an input means to the tab that is shown -/

/-- The standard calculator after an input that is made while it is shown. -/
def Standard.receive (s : Standard) : Input → Standard
  | .frame events => s.run (keyboard.ofFrame events)
  | .pad key => s.run key.standard?.toList
  | .mode _ | .plot _ | .select _ => s

/-- The scientific pad after an input that is made while it is shown. -/
def Scientific.receive (s : Scientific) : Input → Scientific
  | .frame events => s.run (keyboard.ofFrame events)
  | .pad key => s.run key.scientific?.toList
  | .mode wanted => if s.mode = wanted then s else s.step (.setMode wanted)
  | .plot _ | .select _ => s

/-- The plot tab after an input that is made while it is shown; Escape empties the field
for a new function. -/
def PlotTab.receive (default : Viewport) (tab : PlotTab) : Input → PlotTab
  | .frame events => if .escape ∈ events then { tab with input := [] } else tab
  | .plot action => tab.step default action
  | .pad _ | .mode _ | .select _ => tab

namespace Interface.Input

def next (shown : Tab) : Input → Tab
  | .select tab => tab
  | .frame _ | .pad _ | .mode _ | .plot _ => shown

/-- Those of a row of inputs that are made while a tab is shown. -/
def during (tab shown : Tab) : List Input → List Input
  | [] => []
  | input :: inputs =>
      (if shown = tab then [input] else []) ++ during tab (input.next shown) inputs

end Interface.Input

namespace App

/-! ### Actions for one tab -/

theorem run_standard (app : App) (actions : List Standard.Action) :
    app.run (actions.map .standard) = { app with standard := app.standard.run actions } := by
  induction actions generalizing app with
  | nil => rfl
  | cons action actions ih => exact ih (app.step (.standard action))

theorem run_scientific (app : App) (actions : List Scientific.Action) :
    app.run (actions.map .scientific) =
      { app with scientific := app.scientific.run actions } := by
  induction actions generalizing app with
  | nil => rfl
  | cons action actions ih => exact ih (app.step (.scientific action))

section Keyboard
variable {α : Type} (keyboard : PadKeyboard α) (ask : α → Action)

/-- Characters that the pad does not take change nothing. -/
theorem run_typed (app : App) (text : List Char) :
    app.run (text.flatMap (fun c => [((keyboard.character? c).map ask).getD (.ignore c)])) =
      app.run ((text.filterMap keyboard.character?).map ask) := by
  induction text generalizing app with
  | nil => rfl
  | cons c text ih =>
      cases hkey : keyboard.character? c with
      | none =>
          rw [List.filterMap_cons_none hkey, ← ih, List.flatMap_cons, hkey]
          rfl
      | some key =>
          rw [List.filterMap_cons_some hkey, List.flatMap_cons, List.map_cons, hkey]
          exact ih (app.step (ask key))

variable {tab : Tab} {keyboard ask}
  (htyped : ∀ text : List Char, KeyEvent.actions tab (.typed text) =
    text.flatMap (fun c => [((keyboard.character? c).map ask).getD (.ignore c)]))
  (henter : KeyEvent.actions tab .enter = [ask keyboard.enter])
  (hbackspace : KeyEvent.actions tab .backspace = [ask keyboard.backspace])
include htyped henter hbackspace

/-- An event asks of the tab what it means to the pad. -/
theorem run_event (app : App) (event : KeyEvent) :
    app.run (event.actions tab) = app.run ((keyboard.ofEvent event).map ask) := by
  cases event with
  | typed text => rw [htyped, run_typed, PadKeyboard.ofEvent]
  | enter =>
      rw [henter]
      rfl
  | backspace =>
      rw [hbackspace]
      rfl
  | escape => rfl
  | other => rfl

theorem run_events (app : App) (events : List KeyEvent) :
    app.run (events.flatMap (KeyEvent.actions tab)) =
      app.run ((events.flatMap keyboard.ofEvent).map ask) := by
  induction events generalizing app with
  | nil => rfl
  | cons event events ih =>
      rw [List.flatMap_cons, List.flatMap_cons, List.map_append, run_append, run_append, ih,
        run_event htyped henter hbackspace]

/-- A frame asks of the tab what it means to the pad. -/
theorem run_frame {app : App} (htab : app.tab = tab)
    (hescape : app.escape = app.step (ask keyboard.escape)) (events : List KeyEvent) :
    app.run (frameActions app.tab events) = app.run ((keyboard.ofFrame events).map ask) := by
  rw [htab, frameActions, PadKeyboard.ofFrame, List.map_append, run_append, run_append,
    run_events htyped henter hbackspace]
  congr 1
  split
  · exact hescape
  · rfl

end Keyboard

/-! ### One input -/

-- With the tab put in, both sides compute; what is left are the folds of `run`.
section Receive
variable {app : App}

theorem receive_standard (h : app.tab = .standard) (input : Input) :
    app.receive input =
      { app with tab := input.next app.tab, standard := app.standard.receive input } := by
  obtain ⟨settings, tab, standard, scientific, plot⟩ := app
  obtain rfl : tab = .standard := h
  cases input with
  | frame events =>
      rw [receive, Input.actions, @run_frame _ Standard.keyboard Action.standard .standard
        (fun _ => rfl) rfl rfl _ rfl rfl, run_standard]
      rfl
  | pad key =>
      rw [receive, Input.actions, PadKey.actions, Option.toList_map, run_standard]
      rfl
  | _ => rfl

theorem receive_scientific (h : app.tab = .scientific) (input : Input) :
    app.receive input =
      { app with tab := input.next app.tab, scientific := app.scientific.receive input } := by
  obtain ⟨settings, tab, standard, scientific, plot⟩ := app
  obtain rfl : tab = .scientific := h
  cases input with
  | frame events =>
      rw [receive, Input.actions, @run_frame _ Scientific.keyboard Action.scientific .scientific
        (fun _ => rfl) rfl rfl _ rfl rfl, run_scientific]
      rfl
  | pad key =>
      rw [receive, Input.actions, PadKey.actions, Option.toList_map, run_scientific]
      rfl
  | mode wanted =>
      change App.run _ (Button.modeActions scientific wanted) = _
      rw [Button.modeActions, Scientific.receive]
      split <;> rfl
  | _ => rfl

theorem receive_plot (h : app.tab = .plot) (input : Input) :
    app.receive input =
      { app with
        tab := input.next app.tab
        plot := app.plot.receive app.settings.view input } := by
  obtain ⟨settings, tab, standard, scientific, plot⟩ := app
  obtain rfl : tab = .plot := h
  cases input with
  | frame events =>
      rw [receive, Input.actions, frameActions_plot, PlotTab.receive]
      split <;> rfl
  | _ => rfl

end Receive

variable (app : App) (input : Input)

theorem settings_receive : (app.receive input).settings = app.settings :=
  settings_run app (input.actions app)

theorem tab_receive : (app.receive input).tab = input.next app.tab := by
  cases htab : app.tab with
  | standard => rw [receive_standard htab, htab]
  | scientific => rw [receive_scientific htab, htab]
  | plot => rw [receive_plot htab, htab]

theorem standard_receive :
    (app.receive input).standard =
      if app.tab = .standard then app.standard.receive input else app.standard := by
  cases htab : app.tab with
  | standard => rw [receive_standard htab, if_pos rfl]
  | scientific => rw [receive_scientific htab, if_neg Tab.noConfusion]
  | plot => rw [receive_plot htab, if_neg Tab.noConfusion]

theorem scientific_receive :
    (app.receive input).scientific =
      if app.tab = .scientific then app.scientific.receive input else app.scientific := by
  cases htab : app.tab with
  | standard => rw [receive_standard htab, if_neg Tab.noConfusion]
  | scientific => rw [receive_scientific htab, if_pos rfl]
  | plot => rw [receive_plot htab, if_neg Tab.noConfusion]

theorem plot_receive :
    (app.receive input).plot =
      if app.tab = .plot then app.plot.receive app.settings.view input else app.plot := by
  cases htab : app.tab with
  | standard => rw [receive_standard htab, if_neg Tab.noConfusion]
  | scientific => rw [receive_scientific htab, if_neg Tab.noConfusion]
  | plot => rw [receive_plot htab, if_pos rfl]

/-! ### Rows of inputs -/

/-- A part of the state that only the inputs made while one tab is shown reach, is what
these inputs make of it. -/
theorem receiveAll_part {σ : Type} {part : App → σ} {tab : Tab} {step : σ → Input → σ}
    {settings : Settings}
    (hpart : ∀ (app : App) (input : Input), app.settings = settings →
      part (app.receive input) = if app.tab = tab then step (part app) input else part app)
    {app : App} (happ : app.settings = settings) (inputs : List Input) :
    part (app.receiveAll inputs) = (Input.during tab app.tab inputs).foldl step (part app) := by
  induction inputs generalizing app with
  | nil => rfl
  | cons input inputs ih =>
      have hnext : (app.receive input).settings = settings :=
        (settings_receive app input).trans happ
      calc part (app.receiveAll (input :: inputs))
          = part ((app.receive input).receiveAll inputs) := rfl
        _ = (Input.during tab (input.next app.tab) inputs).foldl step
              (part (app.receive input)) := by
            rw [ih hnext, tab_receive]
        _ = (Input.during tab app.tab (input :: inputs)).foldl step (part app) := by
            rw [hpart app input happ, Input.during, List.foldl_append]
            split <;> rfl

/-- Escape counts in the same way wherever it stands in its frame. -/
theorem receive_escape (before after : List KeyEvent) :
    app.receive (.frame (before ++ .escape :: after)) =
      app.receive (.frame (.escape :: (before ++ after))) := by
  have hactions : frameActions app.tab (before ++ .escape :: after) =
      frameActions app.tab (.escape :: (before ++ after)) := by
    simp [frameActions, KeyEvent.actions]
  rw [receive, receive, Input.actions, Input.actions, hactions]

/-- Behind every row of inputs each tab is in the state that it comes to by the inputs
made while it was shown.  In a frame it makes no difference where Escape stands. -/
theorem tabs_isolated (settings : Settings) (session? : Option Session) (inputs : List Input) :
    let first := start settings session?
    let last := first.receiveAll inputs
    last.standard = (Input.during .standard first.tab inputs).foldl Standard.receive
        Standard.start ∧
      last.scientific = (Input.during .scientific first.tab inputs).foldl Scientific.receive
        (Scientific.start settings.mode) ∧
      last.plot = (Input.during .plot first.tab inputs).foldl (PlotTab.receive settings.view)
        first.plot ∧
      ∀ (app : App) (before after : List KeyEvent),
        app.receive (.frame (before ++ .escape :: after)) =
          app.receive (.frame (.escape :: (before ++ after))) := by
  intro first last
  have hstandard := @receiveAll_part _ App.standard .standard Standard.receive settings
    (fun app input _ => standard_receive app input) first rfl inputs
  have hscientific := @receiveAll_part _ App.scientific .scientific Scientific.receive settings
    (fun app input _ => scientific_receive app input) first rfl inputs
  have hplot := @receiveAll_part _ App.plot .plot (PlotTab.receive settings.view) settings
    (fun app input happ => happ ▸ plot_receive app input) first rfl inputs
  exact ⟨hstandard, hscientific, hplot, receive_escape⟩

/-- Buttons and keys on both pads.  Escape clears the operand before the digit of its
frame, and no tab sees what is pressed, typed or chosen while another one is shown. -/
theorem tabs_isolated_pads :
    let inputs : List Input := [.frame [.typed ['7'], .escape], .pad (.digit '4'),
      .pad (.operation .times), .select .scientific, .pad (.function .sin),
      .frame [.typed ['3', 'x']], .pad .percent, .pad .closeParen, .mode .radians, .select .plot,
      .frame [.typed ['9']], .pad (.digit '9'), .plot (.typeInput ['x']), .select .standard,
      .mode .degrees, .pad (.digit '2'), .frame [.enter]]
    let last := (start .standard none).receiveAll inputs
    Input.during .standard .standard inputs = [.frame [.typed ['7'], .escape], .pad (.digit '4'),
        .pad (.operation .times), .select .scientific, .mode .degrees, .pad (.digit '2'),
        .frame [.enter]] ∧
      last.standard = (Input.during .standard .standard inputs).foldl Standard.receive
        Standard.start ∧
      last.standard.display = "148".toList ∧ last.scientific.expression = "sin(3)".toList ∧
      last.scientific.mode = .radians ∧ last.plot.input = ['x'] := by
  intro inputs last
  obtain ⟨hstandard, hscientific, hplot, -⟩ := tabs_isolated .standard none inputs
  refine ⟨by decide, hstandard, ?_, ?_, ?_, ?_⟩
  · rw [hstandard]
    decide +kernel
  · rw [hscientific]
    decide +kernel
  · rw [hscientific]
    decide +kernel
  · rw [hplot]
    decide +kernel

end App

end GraphCalc
