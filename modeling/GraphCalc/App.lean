/-
The application: the settings, the three tabs with the one that is shown, and
what a session keeps of them from one start to the next.
-/
import GraphCalc.PlotTab
import GraphCalc.Scientific
import GraphCalc.Session
import GraphCalc.Settings
import GraphCalc.Standard
namespace GraphCalc

/-- The state of the application. -/
structure App where
  settings : Settings
  /-- the tab that is shown -/
  tab : Tab
  standard : Standard
  scientific : Scientific
  plot : PlotTab
deriving Repr, DecidableEq

namespace App

/-- What can be asked of the application. -/
inductive Action where
  | select (tab : Tab)
  | standard (action : Standard.Action)
  | scientific (action : Scientific.Action)
  | plot (action : PlotTab.Action)
  /-- clears the tab that is shown -/
  | escape
  /-- a typed character that the tab shown does not take -/
  | ignore (key : Char)
deriving Repr, DecidableEq

/-- The application at a start.  The pads are empty; the functions and the
viewport are those of the session, and so is the tab if the settings want it. -/
def start (settings : Settings) (session? : Option Session) : App :=
  let session := session?.getD Session.empty
  { settings
    tab := if settings.restoreTab then session.tab else .standard
    standard := Standard.start
    scientific := Scientific.start settings.mode
    plot := PlotTab.start (session.view.getD settings.view) session.functions }

/-- What is kept for the next start. -/
def session (app : App) : Session :=
  ⟨app.tab, some app.plot.view, app.plot.functions⟩

/-- Clears the tab that is shown; of the plot tab only the text field. -/
def escape (app : App) : App :=
  match app.tab with
  | .standard => { app with standard := app.standard.step .clear }
  | .scientific => { app with scientific := app.scientific.step .clear }
  | .plot => { app with plot := app.plot.step app.settings.view (.typeInput []) }

def step (app : App) : Action → App
  | .select tab => { app with tab }
  | .standard action => { app with standard := app.standard.step action }
  | .scientific action => { app with scientific := app.scientific.step action }
  | .plot action => { app with plot := app.plot.step app.settings.view action }
  | .escape => app.escape
  | .ignore _ => app

def run (app : App) (actions : List Action) : App :=
  actions.foldl step app

/-! ### Restarts -/

/-- What happens to the application: an action, or the end of a session and the start of
the next one. -/
inductive Step where
  | act (action : Action)
  | restart
deriving Repr, DecidableEq

section Restart
-- The notation of the stored texts.
variable (codec : Data.Codec)

/-- A start with the same settings and the session as it is read back from its
stored text. -/
def restart (app : App) : App :=
  start app.settings (Session.read? codec (app.session.text codec))

def advance (app : App) : Step → App
  | .act action => app.step action
  | .restart => app.restart codec

def course (app : App) (steps : List Step) : App :=
  steps.foldl (advance codec) app

end Restart

/-! ### Reported events -/

def startEvents : Option Session → List Event
  | some _ => [.sessionRestored]
  | none => []

def saveEvents (app : App) : List Event :=
  [.sessionSaved app.tab app.plot.functions.length]

/-- What is reported while an action is carried out. -/
def events (app : App) : Action → List Event
  | .standard action => app.standard.events action
  | .scientific action => app.scientific.events action
  | .plot action => app.plot.events app.settings.view action
  | .ignore key => [.keyIgnored key]
  | .select _ | .escape => []

def runEvents (app : App) : List Action → List Event
  | [] => []
  | action :: rest => app.events action ++ (app.step action).runEvents rest

def restartEvents (codec : Data.Codec) (app : App) : List Event :=
  app.saveEvents ++ startEvents (Session.read? codec (app.session.text codec))

theorem run_append (app : App) (first second : List Action) :
    app.run (first ++ second) = (app.run first).run second := by
  simp [run]

theorem runEvents_append (app : App) (first second : List Action) :
    app.runEvents (first ++ second) =
      app.runEvents first ++ (app.run first).runEvents second := by
  induction first generalizing app with
  | nil => rfl
  | cons action rest ih =>
      simp [runEvents, run, ih, List.append_assoc]

end App

end GraphCalc
