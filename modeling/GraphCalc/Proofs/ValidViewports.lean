/-
What is shown can be drawn.  Viewports come from settings texts, from saved sessions,
from the fields for the bounds and from a reset; on each of these ways they have finite
bounds in ascending order, whatever the notations of the texts are.  The bounds of the
fields are taken together or not at all.
-/
import GraphCalc.App
import GraphCalc.Ron.Writer
import GraphCalc.Toml.Reader
import Mathlib.Data.List.Induction
namespace GraphCalc

/-! ### Viewports that are read -/

/-- A field that may be missing holds the default or something that is read. -/
theorem Data.orDefault_cases {α : Type} {read : Data → Option α} {default value : α}
    {field : Option Data} (h : orDefault read default field = some value) :
    value = default ∨ ∃ content : Data, read content = some value := by
  cases field with
  | none => exact Or.inl (Option.some.inj h).symm
  | some content => exact Or.inr ⟨content, h⟩

theorem Viewport.valid_of_ofData? {dialect : Data.Dialect} {data : Data} {view : Viewport}
    (h : ofData? dialect data = some view) : view.Valid := by
  rw [ofData?, Option.bind_eq_bind, Option.bind_eq_some_iff] at h
  obtain ⟨fields, -, h⟩ := h
  split at h
  · simp only [Option.bind_eq_bind, Option.bind_eq_some_iff] at h
    obtain ⟨xMin, -, xMax, -, yMin, -, yMax, -, h⟩ := h
    split at h
    · next hvalid => exact Option.some.inj h ▸ hvalid
    · contradiction
  · contradiction

namespace Session

theorem valid_of_readView? {dialect : Data.Dialect} {data : Data} {view? : Option Viewport}
    (h : readView? dialect data = some view?) : ∀ view ∈ view?, view.Valid := by
  rw [readView?, Option.bind_eq_bind, Option.bind_eq_some_iff] at h
  obtain ⟨option, -, h⟩ := h
  intro view hview
  cases option with
  | none => simp [← Option.some.inj h] at hview
  | some content =>
      rw [Option.bind_eq_bind, Option.bind_eq_some_iff] at h
      obtain ⟨read, hread, h⟩ := h
      rw [← Option.some.inj h, Option.mem_some_iff] at hview
      exact hview ▸ Viewport.valid_of_ofData? hread

/-- A session that can be restored: some structured value stands for it. -/
def Decoded (session : Session) : Prop :=
  ∃ (dialect : Data.Dialect) (data : Data), ofData? dialect data = some session

theorem Decoded.valid {session : Session} (h : session.Decoded) :
    ∀ view ∈ session.view, view.Valid := by
  obtain ⟨dialect, data, h⟩ := h
  rw [ofData?, Option.bind_eq_bind, Option.bind_eq_some_iff] at h
  obtain ⟨fields, -, h⟩ := h
  split at h
  · simp only [Option.bind_eq_bind, Option.bind_eq_some_iff] at h
    obtain ⟨tab, -, view, hread, functions, -, h⟩ := h
    rw [← Option.some.inj h]
    rcases Data.orDefault_cases hread with rfl | ⟨content, hcontent⟩
    · intro view hview
      contradiction
    · exact valid_of_readView? hcontent
  · contradiction

theorem Decoded.of_read? {codec : Data.Codec} {text : List Char} {session : Session}
    (h : read? codec text = some session) : session.Decoded := by
  rw [read?, Option.bind_eq_bind, Option.bind_eq_some_iff] at h
  obtain ⟨data, -, h⟩ := h
  exact ⟨_, data, h⟩

end Session

namespace Settings

theorem valid_of_given? {reader : Data.Reader} {text : List Char} {settings : Settings}
    (h : given? reader text = some settings) : settings.view.Valid := by
  rw [given?, Option.bind_eq_bind, Option.bind_eq_some_iff] at h
  obtain ⟨data, -, h⟩ := h
  rw [ofData?, Option.bind_eq_bind, Option.bind_eq_some_iff] at h
  obtain ⟨fields, -, h⟩ := h
  split at h
  · simp only [Option.bind_eq_bind, Option.bind_eq_some_iff] at h
    obtain ⟨view, hread, mode, -, stroke, -, restoreTab, -, h⟩ := h
    rw [← Option.some.inj h]
    rcases Data.orDefault_cases hread with rfl | ⟨content, hcontent⟩
    · exact Viewport.standard_valid
    · exact Viewport.valid_of_ofData? hcontent
  · contradiction

theorem view_corrected (settings : Settings) : settings.corrected.view = settings.view := by
  rw [corrected]
  split <;> rfl

/-- Settings with which the application can start: those of a settings text in some
notation, or the standard ones. -/
def Loaded (reader : Data.Reader) (settings : Settings) : Prop :=
  settings = standard ∨ ∃ text : List Char, read? reader text = some settings

section Loaded
variable {reader : Data.Reader} {settings : Settings} (h : settings.Loaded reader)
include h

theorem Loaded.valid : settings.view.Valid := by
  rcases h with rfl | ⟨text, hread⟩
  · exact Viewport.standard_valid
  · obtain ⟨given, hgiven, rfl⟩ := Option.map_eq_some_iff.mp hread
    rw [view_corrected]
    exact valid_of_given? hgiven

theorem Loaded.drawable : DrawableStroke settings.stroke := by
  rcases h with rfl | ⟨text, hread⟩
  · exact standardStroke_drawable
  · obtain ⟨given, -, rfl⟩ := Option.map_eq_some_iff.mp hread
    exact corrected_drawable given

end Loaded

end Settings

/-! ### The bounds of the fields -/

/-- What a field asks for: the finite number that its trimmed text is read as, and the
bound of the default where there is none. -/
inductive AsksFor (text : List Char) (default : Float) : Float → Prop where
  | number {v : Float} : Double.read? (Text.trim text) = some v → v.isFinite = true →
      AsksFor text default v
  | default : (∀ v : Float, Double.read? (Text.trim text) = some v → v.isFinite = false) →
      AsksFor text default default

namespace BoundFields

theorem asksFor_readField (text : List Char) (default : Float) :
    AsksFor text default (readField text default) := by
  rw [readField]
  split
  · next v hread =>
      split
      · next hfinite => exact .number hread hfinite
      · next hfinite =>
          refine .default (fun w hw => ?_)
          rw [← Option.some.inj (hread.symm.trans hw)]
          exact Bool.eq_false_iff.mpr hfinite
  · next hnone =>
      refine .default (fun w hw => ?_)
      rw [hnone] at hw
      contradiction

/-- A viewport is what the four fields ask for. -/
structure Ask (fields : BoundFields) (default asked : Viewport) : Prop where
  xMin : AsksFor fields.xMin default.xMin asked.xMin
  xMax : AsksFor fields.xMax default.xMax asked.xMax
  yMin : AsksFor fields.yMin default.yMin asked.yMin
  yMax : AsksFor fields.yMax default.yMax asked.yMax

theorem ask_read (fields : BoundFields) (default : Viewport) :
    fields.Ask default (fields.read default) where
  xMin := asksFor_readField _ _
  xMax := asksFor_readField _ _
  yMin := asksFor_readField _ _
  yMax := asksFor_readField _ _

end BoundFields

namespace PlotTab
variable {tab : PlotTab} {default : Viewport}

theorem acceptsBounds_iff : tab.acceptsBounds default = true ↔ (tab.fields.read default).Valid :=
  decide_eq_true_iff

theorem applyBounds_accepted (h : tab.acceptsBounds default = true) :
    tab.applyBounds default = { tab with view := tab.fields.read default, message := none } :=
  if_pos h

theorem applyBounds_refused (h : tab.acceptsBounds default = false) :
    tab.applyBounds default = { tab with message := some Viewport.refusal } :=
  if_neg (Bool.not_eq_true _ ▸ h)

/-- No action puts an invalid viewport in the place of a valid one. -/
theorem valid_step (htab : tab.view.Valid) (hdefault : default.Valid) (action : Action) :
    (tab.step default action).view.Valid := by
  cases action with
  | typeInput text => exact htab
  | typeField bound text => exact htab
  | submit => exact htab
  | remove index => exact htab
  | clear => exact htab
  | applyBounds =>
      cases haccepts : tab.acceptsBounds default with
      | true =>
          rw [step, applyBounds_accepted haccepts]
          exact acceptsBounds_iff.mp haccepts
      | false =>
          rw [step, applyBounds_refused haccepts]
          exact htab
  | reset => exact hdefault

end PlotTab

/-! ### Runs of the application -/

namespace App

theorem run_concat (app : App) (actions : List Action) (action : Action) :
    app.run (actions ++ [action]) = (app.run actions).step action :=
  app.run_append actions [action]

theorem settings_step (app : App) (action : Action) :
    (app.step action).settings = app.settings := by
  cases action with
  | escape =>
      rw [step, escape]
      split <;> rfl
  | _ => rfl

/-- The settings are those of the start. -/
theorem settings_run (app : App) (actions : List Action) :
    (app.run actions).settings = app.settings := by
  induction actions using List.reverseRecOn with
  | nil => rfl
  | append_singleton actions action ih => rw [run_concat, settings_step, ih]

/-- The viewports of the application are valid. -/
structure Framed (app : App) : Prop where
  view : app.plot.view.Valid
  default : app.settings.view.Valid

theorem framed_start {settings : Settings} (hsettings : settings.view.Valid)
    {session? : Option Session}
    (hsession : ∀ session ∈ session?, ∀ view ∈ session.view, view.Valid) :
    (start settings session?).Framed where
  view := by
    have hview : ∀ view ∈ (session?.getD Session.empty).view, view.Valid := by
      cases session? with
      | none =>
          intro view hview
          contradiction
      | some session => exact hsession session rfl
    change ((session?.getD Session.empty).view.getD settings.view).Valid
    cases heq : (session?.getD Session.empty).view with
    | none => exact hsettings
    | some view => exact hview view heq
  default := hsettings

theorem Framed.step {app : App} (h : app.Framed) (action : Action) : (app.step action).Framed := by
  cases action with
  | plot action => exact ⟨PlotTab.valid_step h.view h.default action, h.default⟩
  | escape =>
      refine ⟨?_, settings_step app .escape ▸ h.default⟩
      rw [App.step, escape]
      split <;> exact h.view
  | _ => exact ⟨h.view, h.default⟩

/-! ### Runs with restarts -/

section Course
variable (codec : Data.Codec)

theorem course_concat (app : App) (steps : List Step) (step : Step) :
    app.course codec (steps ++ [step]) = (app.course codec steps).advance codec step := by
  simp [course]

theorem settings_course (app : App) (steps : List Step) :
    (app.course codec steps).settings = app.settings := by
  induction steps using List.reverseRecOn with
  | nil => rfl
  | append_singleton steps step ih =>
      rw [course_concat, ← ih]
      cases step with
      | act action => exact settings_step _ action
      | restart => rfl

/-- Whatever is read back at a restart, its viewport was checked. -/
theorem Framed.advance {app : App} (h : app.Framed) (step : Step) :
    (app.advance codec step).Framed := by
  cases step with
  | act action => exact h.step action
  | restart =>
      refine framed_start h.default (fun session hsession => ?_)
      exact (Session.Decoded.of_read? hsession).valid

theorem Framed.course {app : App} (h : app.Framed) (steps : List Step) :
    (app.course codec steps).Framed := by
  induction steps using List.reverseRecOn with
  | nil => exact h
  | append_singleton steps step ih =>
      rw [course_concat]
      exact ih.advance codec step

end Course

/-- Behind every run with restarts from loaded settings and from a session that can be
restored or none, the viewport that is shown and the default one are valid, and the curves
have a width; this does not depend on the notations of the stored texts.  The key for the
bounds takes what the four fields ask for where that is a valid viewport; otherwise it
leaves everything as it is and warns. -/
theorem viewports_valid_run (toml : Data.Reader) (codec : Data.Codec) {settings : Settings}
    (hsettings : settings.Loaded toml) {session? : Option Session}
    (hsession : ∀ session ∈ session?, session.Decoded) (steps : List Step) :
    let app := (start settings session?).course codec steps
    app.plot.view.Valid ∧ app.settings.view.Valid ∧
      Settings.DrawableStroke app.settings.stroke ∧
      ∃ asked : Viewport, app.plot.fields.Ask app.settings.view asked ∧
        (app.plot.acceptsBounds app.settings.view = true → asked.Valid ∧
          app.step (.plot .applyBounds) =
            { app with plot := { app.plot with view := asked, message := none } }) ∧
        (app.plot.acceptsBounds app.settings.view = false → ¬ asked.Valid ∧
          app.step (.plot .applyBounds) =
            { app with plot := { app.plot with message := some Viewport.refusal } }) := by
  intro app
  have hstart : (start settings session?).Framed :=
    framed_start hsettings.valid (fun session h => (hsession session h).valid)
  have hframed : app.Framed := hstart.course codec steps
  have hstroke : Settings.DrawableStroke app.settings.stroke := by
    have heq : app.settings = settings := settings_course codec _ steps
    rw [heq]
    exact hsettings.drawable
  refine ⟨hframed.view, hframed.default, hstroke, app.plot.fields.read app.settings.view,
    BoundFields.ask_read _ _, fun haccepts => ?_, fun hrefused => ?_⟩
  · refine ⟨PlotTab.acceptsBounds_iff.mp haccepts, ?_⟩
    rw [step, PlotTab.step, PlotTab.applyBounds_accepted haccepts]
  · refine ⟨fun hvalid => ?_, ?_⟩
    · rw [PlotTab.acceptsBounds_iff.mpr hvalid] at hrefused
      contradiction
    · rw [step, PlotTab.step, PlotTab.applyBounds_refused hrefused]

/-- In the notations of the program: a width that cannot be drawn is replaced, the viewport
is that of the session also behind a restart, and a typed bound that the default one
contradicts changes nothing. -/
theorem viewports_valid_run_refused :
    let codec := Ron.codec Text.isInvisible
    let session : Session := ⟨.standard, some ⟨0.0, 5.0, -1.0, 1.0⟩, []⟩
    let steps : List Step := [.act (.select .plot), .restart,
      .act (.plot (.typeField .xMin "50".toList)), .act (.plot (.typeField .xMax "abc".toList))]
    let app := (start .standard (some session)).course codec steps
    Settings.read? Toml.reader "epaisseur_trait = -1.0".toList = some .standard ∧
      Session.read? codec
        "(fenetre:Some((x_min:0.0,x_max:5.0,y_min:-1.0,y_max:1.0)))".toList = some session ∧
      app.plot.view = ⟨0.0, 5.0, -1.0, 1.0⟩ ∧
      app.plot.acceptsBounds app.settings.view = false ∧
      app.plot.view.Valid ∧
      app.step (.plot .applyBounds) =
        { app with plot := { app.plot with message := some Viewport.refusal } } := by
  intro codec session steps app
  have hsettings : Settings.read? Toml.reader "epaisseur_trait = -1.0".toList =
      some .standard := by
    decide +kernel
  have hsession :
      Session.read? codec
        "(fenetre:Some((x_min:0.0,x_max:5.0,y_min:-1.0,y_max:1.0)))".toList = some session := by
    decide +kernel
  have hshown : app.plot.view = ⟨0.0, 5.0, -1.0, 1.0⟩ := by decide +kernel
  have hrefused : app.plot.acceptsBounds app.settings.view = false := by decide +kernel
  have hdecoded : ∀ other ∈ some session, other.Decoded := by
    rintro other ⟨⟩
    exact Session.Decoded.of_read? hsession
  obtain ⟨hview, -, -, asked, -, -, hkept⟩ :=
    viewports_valid_run Toml.reader codec (Or.inr ⟨_, hsettings⟩) hdecoded steps
  exact ⟨hsettings, hsession, hshown, hrefused, hview, (hkept hrefused).2⟩

end App

end GraphCalc
