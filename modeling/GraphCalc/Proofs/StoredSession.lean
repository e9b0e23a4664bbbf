/-
What survives a restart.  A notation that keeps the values of sessions gives every session
back, and so does the notation of the program; a start with it shows the same viewport and
the same functions, and saves the same session again.
-/
import GraphCalc.Proofs.StoredValues
import GraphCalc.Proofs.ValidViewports
namespace GraphCalc

/-! ### Fields of records -/

section Fields
variable {names : List (List Char)} {contents : List Data} (hnames : names.Nodup)
  (hlength : names.length = contents.length)
include hnames hlength

theorem countP_zip_le_one (name : List Char) :
    (names.zip contents).countP (fun field => field.1 = name) ≤ 1 := by
  have hcount : (names.zip contents).countP (fun field => field.1 = name) = names.count name := by
    conv_rhs => rw [← List.map_fst_zip hlength.le, List.count, List.countP_map]
    exact List.countP_congr (fun field _ => decide_eq_true_iff.trans beq_iff_eq.symm)
  rw [hcount]
  exact List.nodup_iff_count_le_one.mp hnames name

theorem map_lookup_zip :
    names.map (fun name => (names.zip contents).lookup name) = contents.map some := by
  induction names generalizing contents with
  | nil => rw [List.eq_nil_of_length_eq_zero hlength.symm, List.map_nil, List.map_nil]
  | cons name names ih =>
      cases contents with
      | nil => contradiction
      | cons content contents =>
          rw [List.nodup_cons] at hnames
          have hlater := ih hnames.2 (Nat.succ.inj hlength)
          rw [List.map_cons, List.map_cons, ← hlater, List.zip_cons_cons, List.lookup_cons_self]
          refine congrArg (some content :: ·) (List.map_congr_left (fun other hother => ?_))
          have hne : (other == name) = false := by
            rw [beq_eq_false_iff_ne]
            rintro rfl
            exact hnames.1 hother
          rw [List.lookup_cons, hne]

/-- A record with different names gives the content of each of its fields. -/
theorem fields?_ofFields (dialect : Data.Dialect) :
    (Data.ofFields names contents).fields? dialect names = some (contents.map some) := by
  have hany : names.any (fun name =>
      1 < (names.zip contents).countP (fun field => field.1 = name)) = false := by
    rw [List.any_eq_false]
    intro name _
    simpa using countP_zip_le_one hnames hlength name
  rw [Data.ofFields, Data.fields?, hany, if_neg Bool.false_ne_true,
    map_lookup_zip hnames hlength]

end Fields

/-! ### Records that are read back -/

section Dialect
variable (dialect : Data.Dialect)

theorem Data.asByte?_integer (byte : UInt8) : asByte? (.integer byte.toNat) = some byte := by
  have hle : (byte.toNat : ℤ) ≤ 255 := by
    have hlt := byte.toNat_lt
    omega
  rw [asByte?, if_pos ⟨Int.natCast_nonneg _, hle⟩, Int.toNat_natCast]
  simp

theorem Colour.ofData?_data (colour : Colour) : ofData? dialect colour.data = some colour := by
  have hnames : fieldNames.Nodup := by decide
  rw [ofData?, data, fields?_ofFields hnames rfl]
  simp [Data.required, Data.asByte?_integer]

theorem Plotted.ofData?_data (plotted : Plotted) :
    ofData? dialect plotted.data = some plotted := by
  have hnames : fieldNames.Nodup := by decide
  rw [ofData?, data, fields?_ofFields hnames rfl]
  simp [Data.required, Data.asText?, Colour.ofData?_data]

theorem PlotList.ofData?_data (list : PlotList) : ofData? dialect list.data = some list := by
  have hnames : fieldNames.Nodup := by decide
  have hmap : (list.map Plotted.data).mapM (Plotted.ofData? dialect) = some list := by
    induction list with
    | nil => rfl
    | cons plotted list ih =>
        rw [List.map_cons, List.mapM_cons, Plotted.ofData?_data, ih]
        rfl
  rw [ofData?, data, fields?_ofFields hnames rfl]
  simpa [Data.required, Data.asList?] using hmap

theorem Viewport.ofData?_data {view : Viewport} (h : view.Valid) :
    ofData? dialect view.data = some view := by
  have hnames : fieldNames.Nodup := by decide
  rw [ofData?, data, fields?_ofFields hnames rfl]
  exact if_pos h

namespace Session

theorem readView?_ofOption {view? : Option Viewport} (h : ∀ view ∈ view?, view.Valid) :
    readView? dialect (Data.ofOption dialect (view?.map Viewport.data)) = some view? := by
  cases view? with
  | none => rfl
  | some view =>
      have hread := Viewport.ofData?_data dialect (h view rfl)
      have hoption : (Data.ofOption dialect (some view.data)).asOption? dialect =
          some (some view.data) := Data.asOption?_ofOption dialect _
      rw [readView?, Option.map_some, hoption]
      simp [hread]

theorem ofData?_data {session : Session} (h : ∀ view ∈ session.view, view.Valid) :
    ofData? dialect (session.data dialect) = some session := by
  have hnames : fieldNames.Nodup := by decide
  have htab : readTab? dialect (Data.ofChoice dialect session.tab.name.toList) =
      some session.tab := by
    rw [readTab?, Data.asChoice?_ofChoice]
    exact Tab.ofName?_name session.tab
  rw [ofData?, data, fields?_ofFields hnames rfl]
  simp [Data.orDefault, htab, readView?_ofOption dialect h, PlotList.ofData?_data]

end Session

end Dialect

/-! ### Notations that keep sessions -/

namespace Session

def Finite (session : Session) : Prop :=
  ∀ view ∈ session.view, view.xMin.isFinite = true ∧ view.xMax.isFinite = true ∧
    view.yMin.isFinite = true ∧ view.yMax.isFinite = true

/-- What the notation writes for a session with finite numbers, it reads as the value that
it wrote; the texts of the functions may be any. -/
def KeptBy (codec : Data.Codec) : Prop :=
  ∀ session : Session, session.Finite →
    codec.read? (codec.write (session.data codec.dialect)) = some (session.data codec.dialect)

/-- A session with a valid viewport is read back from its stored text. -/
theorem KeptBy.read?_text {codec : Data.Codec} (hcodec : KeptBy codec) {session : Session}
    (h : ∀ view ∈ session.view, view.Valid) :
    read? codec (session.text codec) = some session := by
  have hdata := hcodec session (fun view hview => (h view hview).1)
  rw [read?, text, hdata]
  exact ofData?_data codec.dialect h

end Session

/-! ### The notation of the program -/

namespace Ron
variable (invisible : Char → Bool) (depth : ℕ)

theorem kept_colour (colour : Colour) : Kept invisible (depth + 2) colour.data := by
  refine kept_ofFields (by decide) (fun content hcontent => ?_)
  simp only [List.mem_cons, List.not_mem_nil, or_false] at hcontent
  rcases hcontent with rfl | rfl | rfl <;> exact kept_integer invisible depth _

theorem kept_plotted (plotted : Plotted) : Kept invisible (depth + 3) plotted.data := by
  refine kept_ofFields (by decide) (fun content hcontent => ?_)
  simp only [List.mem_cons, List.not_mem_nil, or_false] at hcontent
  rcases hcontent with rfl | rfl
  · exact kept_text invisible (depth + 1) plotted.text
  · exact kept_colour invisible depth plotted.colour

theorem kept_plotList (list : PlotList) : Kept invisible (depth + 5) list.data := by
  refine kept_ofFields (by decide) (fun content hcontent => ?_)
  rw [List.mem_singleton.mp hcontent]
  refine kept_list (fun item hitem => ?_)
  obtain ⟨plotted, -, rfl⟩ := List.mem_map.mp hitem
  exact kept_plotted invisible depth plotted

theorem kept_tab (tab : Tab) :
    Kept invisible (depth + 1) (Data.ofChoice dialect tab.name.toList) := by
  cases tab with
  | standard => exact @kept_name invisible depth (.word "Standard".toList) rfl rfl
  | scientific => exact @kept_name invisible depth (.word "Scientifique".toList) rfl rfl
  | plot => exact @kept_name invisible depth (.word "Graphique".toList) rfl rfl

theorem kept_view {session : Session} (h : session.Finite) :
    Kept invisible (depth + 3) (Data.ofOption dialect (session.view.map Viewport.data)) := by
  obtain ⟨tab, view?, functions⟩ := session
  cases view? with
  | none => exact kept_absent invisible (depth + 2)
  | some view =>
      obtain ⟨hxMin, hxMax, hyMin, hyMax⟩ := h view rfl
      refine kept_present (kept_ofFields (by decide) (fun content hcontent => ?_))
      simp only [List.mem_cons, List.not_mem_nil, or_false] at hcontent
      rcases hcontent with rfl | rfl | rfl | rfl
      · exact kept_real invisible depth hxMin
      · exact kept_real invisible depth hxMax
      · exact kept_real invisible depth hyMin
      · exact kept_real invisible depth hyMax

/-- The notation of the program keeps sessions, whichever characters it writes by their
code points. -/
theorem keeps_sessions : Session.KeptBy (codec invisible) := by
  intro session hfinite
  refine read?_write (kept_ofFields (by decide) (fun content hcontent => ?_))
  simp only [List.mem_cons, List.not_mem_nil, or_false] at hcontent
  rcases hcontent with rfl | rfl | rfl
  · exact kept_tab invisible 126 session.tab
  · exact kept_view invisible 124 hfinite
  · exact kept_plotList invisible 122 session.functions

end Ron

/-! ### Restarts -/

namespace App

theorem session_valid {app : App} (h : app.Framed) : ∀ view ∈ app.session.view, view.Valid := by
  intro view hview
  rw [← Option.some.inj hview]
  exact h.view

section Restart
variable {codec : Data.Codec} (hcodec : Session.KeptBy codec) {app : App} (h : app.Framed)
include hcodec h

/-- A restart is a start with the session that was saved. -/
theorem restart_eq : app.restart codec = start app.settings (some app.session) := by
  rw [restart, hcodec.read?_text (session_valid h)]

/-- What is saved behind a restart. -/
theorem session_restart :
    (app.restart codec).session =
      { app.session with tab := if app.settings.restoreTab then app.tab else .standard } := by
  rw [restart_eq hcodec h]
  rfl

/-- A second restart changes nothing. -/
theorem restart_restart : (app.restart codec).restart codec = app.restart codec := by
  have hframed : (app.restart codec).Framed := h.advance codec .restart
  rw [restart_eq hcodec hframed, session_restart hcodec h, restart_eq hcodec h]
  cases hrestore : app.settings.restoreTab with
  | true => simp [start, hrestore, session]
  | false => simp [start, hrestore, session]

theorem iterate_restart (count : ℕ) :
    (restart codec)^[count + 1] app = app.restart codec := by
  induction count with
  | zero => rfl
  | succ count ih => rw [Function.iterate_succ_apply', ih, restart_restart hcodec h]

end Restart

/-- Behind every run with restarts from valid viewports, and in every notation that keeps
sessions, the session is read back from its stored text.  A start with it shows the
viewport, the functions and, where the settings want it, the tab of the session; its fields
show the viewport and its pads are empty.  It saves the session with the tab that it shows,
and further restarts change nothing. -/
theorem restart_run {codec : Data.Codec} (hcodec : Session.KeptBy codec) {settings : Settings}
    (hsettings : settings.view.Valid) {session? : Option Session}
    (hsession : ∀ session ∈ session?, ∀ view ∈ session.view, view.Valid)
    (steps : List Step) :
    let app := (start settings session?).course codec steps
    let again := start settings (Session.read? codec (app.session.text codec))
    let tab := if settings.restoreTab then app.tab else .standard
    Session.read? codec (app.session.text codec) = some app.session ∧
      again.plot.view = app.plot.view ∧ again.plot.functions = app.plot.functions ∧
      again.tab = tab ∧
      again.plot.fields = BoundFields.ofViewport app.plot.view ∧
      again.standard = Standard.start ∧ again.scientific = Scientific.start settings.mode ∧
      again.session = { app.session with tab } ∧
      ∀ count : ℕ, (restart codec)^[count + 1] app = again := by
  intro app again tab
  have hframed : app.Framed := (framed_start hsettings hsession).course codec steps
  have hread : Session.read? codec (app.session.text codec) = some app.session :=
    hcodec.read?_text (session_valid hframed)
  have hkept : app.settings = settings := settings_course codec _ steps
  have hagain : again = start settings (some app.session) := by
    change start settings (Session.read? codec (app.session.text codec)) = _
    rw [hread]
  have hrestart : app.restart codec = again := by
    rw [restart_eq hcodec hframed, hkept, hagain]
  refine ⟨hread, ?_⟩
  rw [hagain]
  refine ⟨rfl, rfl, rfl, rfl, rfl, rfl, rfl, fun count => ?_⟩
  rw [iterate_restart hcodec hframed, hrestart, hagain]

/-- In the notation of the program: a negative zero, a text of quotes and marks, and
settings that do not restore the tab. -/
theorem restart_run_quotes :
    let codec := Ron.codec Text.isInvisible
    let settings : Settings := { Settings.standard with restoreTab := false }
    let steps : List Step := [.act (.select .plot),
      .act (.plot (.typeInput "\"\\'\t".toList)), .act (.plot .submit), .restart,
      .act (.plot (.typeField .xMin "-0".toList)), .act (.plot .applyBounds)]
    let app := (start settings none).course codec steps
    let again := start settings (Session.read? codec (app.session.text codec))
    Session.KeptBy codec ∧ settings.view.Valid ∧ again.tab = .standard ∧
      again.plot.view = ⟨-0.0, 10.0, -10.0, 10.0⟩ ∧
      again.plot.functions = [⟨"\"\\'\t".toList, ⟨0x4A, 0x90, 0xD9⟩⟩] ∧
      (restart codec)^[3] app = again := by
  intro codec settings steps app again
  have hcodec : Session.KeptBy codec := Ron.keeps_sessions Text.isInvisible
  have hview : app.plot.view = ⟨-0.0, 10.0, -10.0, 10.0⟩ := by decide +kernel
  have hfunctions : app.plot.functions = [⟨"\"\\'\t".toList, ⟨0x4A, 0x90, 0xD9⟩⟩] := by
    decide +kernel
  obtain ⟨-, hview', hfunctions', htab, -, -, -, -, hrestarts⟩ :=
    @restart_run codec hcodec settings Viewport.standard_valid none (by simp) steps
  exact ⟨hcodec, Viewport.standard_valid, htab, hview'.trans hview,
    hfunctions'.trans hfunctions, hrestarts 2⟩

end App

end GraphCalc
