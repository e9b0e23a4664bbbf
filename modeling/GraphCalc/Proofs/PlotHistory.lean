/-
The list of functions over a run.  Functions are added at its end and taken out
anywhere, through the plot tab or not, and the list survives restarts.  What it holds at
the end is told from its history: the entries that were added and not taken out since.
-/
import GraphCalc.Proofs.StoredSession
namespace GraphCalc

theorem Colour.palette_ofCount (count : ℕ) :
    Colour.palette[count % 8]? = some (Colour.ofCount count) :=
  List.getElem?_eq_getElem (Nat.mod_lt count (by decide))

theorem Colour.ofCount_mem (count : ℕ) : Colour.ofCount count ∈ Colour.palette :=
  List.mem_of_getElem? (Colour.palette_ofCount count)

namespace PlotList

/-! ### Edits -/

/-- A change that is asked of the list. -/
inductive Edit where
  | add (text : List Char)
  | remove (index : ℕ)
  | clear
deriving Repr, DecidableEq

def edit (list : PlotList) : Edit → PlotList
  | .add text => list.add text
  | .remove index => list.remove index
  | .clear => []

def run (list : PlotList) (edits : List Edit) : PlotList :=
  edits.foldl edit list

theorem addition_added_iff {list : PlotList} {text : List Char} :
    list.addition text = .added ↔
      (∃ c ∈ text, Text.isBlank c = false) ∧ text ∉ list.texts := by
  have hblank : (∃ c ∈ text, Text.isBlank c = false) ↔ Text.allBlank text = false := by
    simp [Text.allBlank]
  rw [hblank, addition]
  split
  · next hall => simp [hall]
  · next hall =>
      split
      · next hlisted => simp [hlisted]
      · next hfresh => simp [hall, hfresh]

theorem add_added {list : PlotList} {text : List Char} (h : list.addition text = .added) :
    list.add text = list ++ [⟨text, Colour.ofCount list.length⟩] := by
  rw [add, h]

theorem add_not_added {list : PlotList} {text : List Char} (h : list.addition text ≠ .added) :
    list.add text = list := by
  cases hanswer : list.addition text with
  | added => contradiction
  | blank => rw [add, hanswer]
  | duplicate => rw [add, hanswer]

theorem remove_out_of_range {list : PlotList} {index : ℕ} (h : list.length ≤ index) :
    list.remove index = list :=
  List.eraseIdx_of_length_le h

/-- Different texts, none of them blank, and colours of the palette. -/
structure Proper (list : PlotList) : Prop where
  distinct : list.texts.Nodup
  visible : ∀ entry ∈ list, ∃ c ∈ entry.text, Text.isBlank c = false
  coloured : ∀ entry ∈ list, entry.colour ∈ Colour.palette

namespace Proper
variable {list : PlotList}

theorem empty : Proper [] where
  distinct := List.nodup_nil
  visible := by simp
  coloured := by simp

theorem nodup (h : list.Proper) : list.Nodup :=
  h.distinct.of_map

theorem sublist (h : list.Proper) {rest : PlotList} (hrest : rest.Sublist list) :
    rest.Proper where
  distinct := h.distinct.sublist (hrest.map Plotted.text)
  visible entry hentry := h.visible entry (hrest.subset hentry)
  coloured entry hentry := h.coloured entry (hrest.subset hentry)

theorem add (h : list.Proper) (text : List Char) : (list.add text).Proper := by
  by_cases hadded : list.addition text = .added
  · obtain ⟨hvisible, hfresh⟩ := addition_added_iff.mp hadded
    rw [add_added hadded]
    refine ⟨?_, fun entry hentry => ?_, fun entry hentry => ?_⟩
    · rw [texts, List.map_append]
      refine h.distinct.append (List.nodup_singleton text) ?_
      exact List.disjoint_singleton.mpr hfresh
    · rcases List.mem_append.mp hentry with hlisted | hlast
      · exact h.visible entry hlisted
      · rw [List.mem_singleton.mp hlast]
        exact hvisible
    · rcases List.mem_append.mp hentry with hlisted | hlast
      · exact h.coloured entry hlisted
      · rw [List.mem_singleton.mp hlast]
        exact Colour.ofCount_mem list.length
  · rw [add_not_added hadded]
    exact h

theorem edit (h : list.Proper) (edit : Edit) : (list.edit edit).Proper := by
  cases edit with
  | add text => exact h.add text
  | remove index => exact h.sublist (List.eraseIdx_sublist list index)
  | clear => exact empty

theorem run (h : list.Proper) (edits : List Edit) : (list.run edits).Proper := by
  induction edits generalizing list with
  | nil => exact h
  | cons edit edits ih => exact ih (h.edit edit)

end Proper

/-! ### What a history leaves -/

/-- The entry that an edit adds, in the colour of the palette whose turn it is. -/
def added? (list : PlotList) : Edit → Option Plotted
  | .add text =>
      if list.addition text = .added then Colour.palette[list.length % 8]?.map (Plotted.mk text)
      else none
  | .remove _ | .clear => none

def removes (list : PlotList) (entry : Plotted) : Edit → Bool
  | .add _ => false
  | .remove index => list[index]? = some entry
  | .clear => true

def removedBy (list : PlotList) (entry : Plotted) : List Edit → Bool
  | [] => false
  | edit :: edits => list.removes entry edit || (list.edit edit).removedBy entry edits

/-- All the entries that edits add, in their order. -/
def additions (list : PlotList) : List Edit → PlotList
  | [] => []
  | edit :: edits => (list.added? edit).toList ++ (list.edit edit).additions edits

/-- The entries that edits add and that no later one of them takes out. -/
def survivors (list : PlotList) : List Edit → PlotList
  | [] => []
  | edit :: edits =>
      (list.added? edit).toList.filter (fun entry => !(list.edit edit).removedBy entry edits) ++
        (list.edit edit).survivors edits

theorem survivors_sublist (list : PlotList) (edits : List Edit) :
    (list.survivors edits).Sublist (list.additions edits) := by
  induction edits generalizing list with
  | nil => exact List.Sublist.refl []
  | cons edit edits ih => exact List.filter_sublist.append (ih (list.edit edit))

theorem add_eq_append (list : PlotList) (text : List Char) :
    list.add text = list ++ (list.added? (.add text)).toList := by
  by_cases hadded : list.addition text = .added
  · rw [add_added hadded, added?, if_pos hadded, Colour.palette_ofCount]
    rfl
  · rw [add_not_added hadded, added?, if_neg hadded]
    exact (List.append_nil list).symm

/-- Without repetitions the entry at an index is taken out by its value. -/
theorem remove_eq_filter {list : PlotList} (h : list.Nodup) (index : ℕ) :
    list.remove index = list.filter (fun entry => !list.removes entry (.remove index)) := by
  by_cases hindex : index < list.length
  · rw [remove, ← h.erase_getElem index hindex, h.erase_eq_filter]
    refine List.filter_congr (fun entry _ => ?_)
    simp [removes, hindex, bne, eq_comm, beq_eq_decide]
  · rw [remove_out_of_range (Nat.le_of_not_lt hindex)]
    refine (List.filter_eq_self.mpr (fun entry _ => ?_)).symm
    simp [removes, List.getElem?_eq_none (Nat.le_of_not_lt hindex)]

theorem edit_eq {list : PlotList} (h : list.Nodup) (edit : Edit) :
    list.edit edit =
      list.filter (fun entry => !list.removes entry edit) ++ (list.added? edit).toList := by
  cases edit with
  | add text => simpa [PlotList.edit, removes] using list.add_eq_append text
  | remove index => simpa [PlotList.edit, added?] using remove_eq_filter h index
  | clear => simp [PlotList.edit, removes, added?]

/-- A list after edits: what they leave of it, and behind it what they leave of their own
entries. -/
theorem run_eq {list : PlotList} (h : list.Proper) (edits : List Edit) :
    list.run edits =
      list.filter (fun entry => !list.removedBy entry edits) ++ list.survivors edits := by
  induction edits generalizing list with
  | nil => simp [run, removedBy, survivors]
  | cons edit edits ih =>
      -- the edits behind this one sift the entries it leaves and the one it adds alike
      have hfilter : (list.edit edit).filter
            (fun entry => !(list.edit edit).removedBy entry edits) =
          list.filter (fun entry => !list.removedBy entry (edit :: edits)) ++
            (list.added? edit).toList.filter
              (fun entry => !(list.edit edit).removedBy entry edits) := by
        conv_lhs => rw [edit_eq h.nodup edit, List.filter_append, List.filter_filter]
        rw [← edit_eq h.nodup edit]
        congr 1
        refine List.filter_congr (fun entry _ => ?_)
        rw [removedBy, Bool.not_or, Bool.and_comm]
      calc list.run (edit :: edits)
          = (list.edit edit).run edits := rfl
        _ = (list.edit edit).filter (fun entry => !(list.edit edit).removedBy entry edits) ++
              (list.edit edit).survivors edits := ih (h.edit edit)
        _ = list.filter (fun entry => !list.removedBy entry (edit :: edits)) ++
              list.survivors (edit :: edits) := by
            rw [hfilter, List.append_assoc, survivors]

theorem run_empty (edits : List Edit) : run [] edits = survivors [] edits :=
  run_eq Proper.empty edits

end PlotList

/-! ### Runs of the application -/

namespace App

/-- What can happen to the list of the application: an edit of the list itself, or a step
of the application, among them the actions of the plot tab and a restart. -/
inductive ListStep where
  | direct (edit : PlotList.Edit)
  | step (step : Step)
deriving Repr, DecidableEq

/-- The edit of the list that a step asks for, if it asks for one. -/
def edit? (app : App) : ListStep → Option PlotList.Edit
  | .direct edit => some edit
  | .step (.act (.plot .submit)) => some (.add app.plot.input)
  | .step (.act (.plot (.remove index))) => some (.remove index)
  | .step (.act (.plot .clear)) => some .clear
  | .step _ => none

theorem functions_escape (app : App) : app.escape.plot.functions = app.plot.functions := by
  rw [escape]
  split <;> rfl

section Codec
variable (codec : Data.Codec)

def listStep (app : App) : ListStep → App
  | .direct edit =>
      { app with plot := { app.plot with functions := app.plot.functions.edit edit } }
  | .step step => app.advance codec step

def listRun (app : App) (steps : List ListStep) : App :=
  steps.foldl (listStep codec) app

def edits (app : App) : List ListStep → List PlotList.Edit
  | [] => []
  | step :: steps => (app.edit? step).toList ++ (app.listStep codec step).edits steps

theorem Framed.listStep {app : App} (h : app.Framed) (step : ListStep) :
    (app.listStep codec step).Framed := by
  cases step with
  | direct edit => exact ⟨h.view, h.default⟩
  | step step => exact h.advance codec step

variable {codec} (hcodec : Session.KeptBy codec)
include hcodec

theorem functions_restart {app : App} (h : app.Framed) :
    (app.restart codec).plot.functions = app.plot.functions := by
  rw [restart_eq hcodec h]
  rfl

/-- A step does to the list what it asks for, and nothing else. -/
theorem functions_listStep {app : App} (h : app.Framed) (step : ListStep) :
    (app.listStep codec step).plot.functions =
      app.plot.functions.run (app.edit? step).toList := by
  cases step with
  | direct edit => rfl
  | step step =>
      cases step with
      | restart => exact functions_restart hcodec h
      | act action =>
          cases action with
          | plot action =>
              cases action with
              | applyBounds =>
                  change (app.plot.applyBounds app.settings.view).functions = app.plot.functions
                  rw [PlotTab.applyBounds]
                  split <;> rfl
              | _ => rfl
          | escape => exact functions_escape app
          | _ => rfl

/-- The list is what the edits of a run make of it. -/
theorem functions_listRun {app : App} (h : app.Framed) (steps : List ListStep) :
    (app.listRun codec steps).plot.functions =
      app.plot.functions.run (app.edits codec steps) := by
  induction steps generalizing app with
  | nil => rfl
  | cons step steps ih =>
      obtain ⟨next, hnext⟩ : ∃ next : App, next = app.listStep codec step := ⟨_, rfl⟩
      calc (app.listRun codec (step :: steps)).plot.functions
          = (next.listRun codec steps).plot.functions := by
            rw [hnext]
            rfl
        _ = next.plot.functions.run (next.edits codec steps) :=
            ih (hnext ▸ h.listStep codec step)
        _ = (app.plot.functions.run (app.edit? step).toList).run (next.edits codec steps) := by
            rw [hnext, functions_listStep hcodec h step]
        _ = app.plot.functions.run (app.edits codec (step :: steps)) := by
            rw [hnext]
            exact List.foldl_append.symm

/-- Behind every run from the empty list, with restarts in every notation that keeps
sessions, its texts are different and not blank and its colours are those of the palette; it
consists of the entries that were added and not taken out since, as they were added and in
this order.  Any list takes a text exactly when it is neither blank nor listed, and then at
its end and in the colour that comes next; a text that is not taken and an index beyond the
end leave it as it is. -/
theorem functions_history {app : App} (hframed : app.Framed) (hempty : app.plot.functions = [])
    (steps : List ListStep) :
    let list := (app.listRun codec steps).plot.functions
    list.texts.Nodup ∧
      (∀ entry ∈ list,
        (∃ c ∈ entry.text, Text.isBlank c = false) ∧ entry.colour ∈ Colour.palette) ∧
      list = PlotList.survivors [] (app.edits codec steps) ∧
      list.Sublist (PlotList.additions [] (app.edits codec steps)) ∧
      ∀ (other : PlotList) (text : List Char) (index : ℕ),
        (other.addition text = .added ↔
          (∃ c ∈ text, Text.isBlank c = false) ∧ text ∉ other.texts) ∧
        (other.addition text = .added → ∃ colour : Colour,
          Colour.palette[other.length % 8]? = some colour ∧
            other.add text = other ++ [⟨text, colour⟩]) ∧
        (other.addition text ≠ .added → other.add text = other) ∧
        (other.length ≤ index → other.remove index = other) := by
  intro list
  have hlist : list = PlotList.run [] (app.edits codec steps) := by
    rw [← hempty]
    exact functions_listRun hcodec hframed steps
  have hproper : list.Proper := hlist ▸ PlotList.Proper.empty.run (app.edits codec steps)
  have hsurvivors : list = PlotList.survivors [] (app.edits codec steps) :=
    hlist.trans (PlotList.run_empty (app.edits codec steps))
  refine ⟨hproper.distinct,
    fun entry hentry => ⟨hproper.visible entry hentry, hproper.coloured entry hentry⟩,
    hsurvivors, ?_, fun other text index => ?_⟩
  · rw [hsurvivors]
    exact PlotList.survivors_sublist [] (app.edits codec steps)
  · refine ⟨PlotList.addition_added_iff, fun hadded => ?_, PlotList.add_not_added,
      PlotList.remove_out_of_range⟩
    exact ⟨_, Colour.palette_ofCount other.length, PlotList.add_added hadded⟩

end Codec

/-- In the notation of the program: a function is added through the tab and one directly,
the first is taken out behind a restart, and a third comes in the colour of the second. -/
theorem functions_history_restart :
    let codec := Ron.codec Text.isInvisible
    let steps : List ListStep :=
      [.step (.act (.plot (.typeInput "sin(x)".toList))), .step (.act (.plot .submit)),
        .direct (.add "x".toList), .direct (.add "x".toList), .step .restart,
        .step (.act (.plot (.remove 0))), .step (.act (.plot (.remove 7))),
        .direct (.add "x+1".toList)]
    let start := App.start .standard none
    Session.KeptBy codec ∧
      (start.listRun codec steps).plot.functions =
        [⟨"x".toList, ⟨0x2E, 0xCC, 0x71⟩⟩, ⟨"x+1".toList, ⟨0x2E, 0xCC, 0x71⟩⟩] ∧
      (start.listRun codec steps).plot.functions =
        PlotList.survivors [] (start.edits codec steps) ∧
      start.edits codec steps = [.add "sin(x)".toList, .add "x".toList, .add "x".toList,
        .remove 0, .remove 7, .add "x+1".toList] := by
  intro codec steps start
  have hcodec : Session.KeptBy codec := Ron.keeps_sessions Text.isInvisible
  have hframed : start.Framed :=
    @framed_start Settings.standard Viewport.standard_valid none (by simp)
  obtain ⟨-, -, hsurvivors, -, -⟩ := functions_history hcodec hframed rfl steps
  exact ⟨hcodec, by decide +kernel, hsurvivors, by decide +kernel⟩

end App

end GraphCalc
