/-
The fields for the bounds show the viewport.  The text of a bound is read as that bound,
bit for bit and without the default, so the bounds of fields that nobody typed in are
taken as a whole and are those of the viewport that the fields show.
-/
import GraphCalc.Proofs.OperandText
import GraphCalc.Proofs.ValidViewports
namespace GraphCalc

/-! ### What the fields are read as -/

theorem isBlank_of_mem_plainText {v : Float} (h : v.isFinite = true) {c : Char}
    (hc : c ∈ Double.plainText v) : Text.isBlank c = false := by
  rcases (isOperand_plainText h).cases_of_mem hc with rfl | hdigit | rfl
  · decide
  · exact Token.isBlank_of_inMantissa (Token.inMantissa_of_isDigit hdigit)
  · decide

namespace BoundFields

/-- A field that shows a finite number is read as that number, whatever the default. -/
theorem readField_plainText {v : Float} (h : v.isFinite = true) (default : Float) :
    readField (Double.plainText v) default = v := by
  have htrim := Text.trim_eq_self (fun c hc => isBlank_of_mem_plainText h hc)
  simp only [readField, htrim, read?_plainText h, h, if_true]

theorem read_ofViewport {view : Viewport} (h : view.Valid) (default : Viewport) :
    (ofViewport view).read default = view := by
  obtain ⟨⟨hxMin, hxMax, hyMin, hyMax⟩, -⟩ := h
  rw [read, ofViewport, readField_plainText hxMin, readField_plainText hxMax,
    readField_plainText hyMin, readField_plainText hyMax]

end BoundFields

/-! ### Fields that nobody typed in -/

namespace PlotTab
variable {tab : PlotTab} {view default : Viewport}

theorem applyBounds_eq (hview : view.Valid) (hfields : tab.fields = BoundFields.ofViewport view)
    (default : Viewport) : tab.acceptsBounds default = true ∧
      tab.applyBounds default = { tab with view := view, message := none } := by
  have hread := BoundFields.read_ofViewport hview default
  rw [← hfields] at hread
  have haccepts : tab.acceptsBounds default = true :=
    acceptsBounds_iff.mpr (hread.symm ▸ hview)
  refine ⟨haccepts, ?_⟩
  rw [applyBounds_accepted haccepts, hread]

/-- The fields show the viewport of the tab. -/
structure Shown (tab : PlotTab) : Prop where
  valid : tab.view.Valid
  fields : tab.fields = BoundFields.ofViewport tab.view

/-- The actions that put a text in a field for a bound. -/
def Action.typesBound : Action → Bool
  | typeField _ _ => true
  | _ => false

theorem Shown.step (h : tab.Shown) (hdefault : default.Valid) {action : Action}
    (haction : action.typesBound = false) : (tab.step default action).Shown := by
  cases action with
  | typeInput text => exact ⟨h.valid, h.fields⟩
  | typeField bound text => contradiction
  | submit => exact ⟨h.valid, h.fields⟩
  | remove index => exact ⟨h.valid, h.fields⟩
  | clear => exact ⟨h.valid, h.fields⟩
  | applyBounds =>
      rw [PlotTab.step, (applyBounds_eq h.valid h.fields default).2]
      exact ⟨h.valid, h.fields⟩
  | reset => exact ⟨hdefault, rfl⟩

theorem Shown.run (h : tab.Shown) (hdefault : default.Valid) {actions : List Action}
    (hactions : ∀ action ∈ actions, action.typesBound = false) :
    (actions.foldl (PlotTab.step default) tab).Shown := by
  induction actions using List.reverseRecOn with
  | nil => exact h
  | append_singleton actions action ih =>
      rw [List.foldl_append, List.foldl_cons, List.foldl_nil]
      have hbefore := ih (fun other hmem => hactions other (List.mem_append_left _ hmem))
      exact hbefore.step hdefault (hactions action (by simp))

/-- Fields that show a valid viewport are accepted and give that viewport, whatever the
default one and the one before; and in a run that never types in them, taking the bounds
changes no more than the message. -/
theorem applyBounds_shown (tab : PlotTab) {view default : Viewport} (hview : view.Valid)
    (hdefault : default.Valid) (hfields : tab.fields = BoundFields.ofViewport view) :
    tab.acceptsBounds default = true ∧
      tab.applyBounds default = { tab with view := view, message := none } ∧
      ∀ actions : List Action, (∀ action ∈ actions, action.typesBound = false) →
        let later := actions.foldl (step default) (tab.applyBounds default)
        later.applyBounds default = { later with message := none } := by
  obtain ⟨haccepts, htaken⟩ := applyBounds_eq hview hfields default
  have hshown : (tab.applyBounds default).Shown := by
    rw [htaken]
    exact ⟨hview, hfields⟩
  refine ⟨haccepts, htaken, ?_⟩
  intro actions hactions later
  have hlater : later.Shown := hshown.run hdefault hactions
  exact (applyBounds_eq hlater.valid hlater.fields default).2

/-- A negative zero, the least and the greatest positive double, and a number without an
exact decimal text of few digits. -/
theorem applyBounds_shown_signedZero :
    let view : Viewport := ⟨-0.0, 5e-324, 0.1, 1.7976931348623157e308⟩
    let tab : PlotTab := (start .standard []).step view .reset
    let taken := tab.applyBounds ⟨1.0, 2.0, 3.0, 4.0⟩
    tab.acceptsBounds ⟨1.0, 2.0, 3.0, 4.0⟩ = true ∧ taken.view = view ∧
      taken.view.xMin.toBits = 0x8000000000000000 ∧ taken.view.xMax.toBits = 1 := by
  intro view tab taken
  have hview : view.Valid := by decide +kernel
  obtain ⟨haccepts, htaken, -⟩ :=
    applyBounds_shown tab hview (by decide +kernel : Viewport.Valid ⟨1.0, 2.0, 3.0, 4.0⟩) rfl
  have heq : taken.view = view := by rw [show taken = _ from htaken]
  exact ⟨haccepts, heq, by rw [heq]; decide +kernel, by rw [heq]; decide +kernel⟩

end PlotTab

end GraphCalc
