/-
The emptied pad.  The expression may be emptied by the equals key, the clear key, the
backspace key and the sign key.  The first three leave a result that belongs to an empty
expression; the sign key evaluates the empty text, and its fault stays until another key
sets the result.
-/
import GraphCalc.Proofs.LastResult
namespace GraphCalc

open Token

/-- Only a text without tokens is at fault for being empty. -/
theorem written_of_emptyInput {text : List Char} (h : compile text = .error .emptyInput) :
    written text = .ok [] := by
  rw [compile_eq] at h
  split at h
  · next hblank =>
      rw [← written_trim, List.isEmpty_iff.mp hblank, written, scan, List.reverse_nil]
  cases hwritten : written text with
  | error e =>
      rw [hwritten] at h
      obtain rfl : e = .emptyInput := Except.error.inj h
      exact absurd (isLexical_of_scan hwritten) Bool.false_ne_true
  | ok tokens =>
      rw [hwritten] at h
      change (Postfix.ofTokens (withProducts tokens)).bind Postfix.toExpr = _ at h
      by_cases hempty : tokens = []
      · rw [hempty]
      have hne : withProducts tokens ≠ [] := by
        intro hnil
        have hhead := head?_withProducts tokens
        rw [hnil, List.head?_nil] at hhead
        exact hempty (List.head?_eq_none_iff.mp hhead.symm)
      cases hitems : Postfix.ofTokens (withProducts tokens) with
      | error e =>
          rw [hitems] at h
          obtain rfl : e = .emptyInput := Except.error.inj h
          exact absurd (isStructural_of_ofTokens hne hitems) Bool.false_ne_true
      | ok items =>
          obtain ⟨tree, -, rfl⟩ := Grammar.ofTokens_eq_ok_iff.mp hitems
          rw [hitems] at h
          change Postfix.toExpr tree.listing = _ at h
          rw [Grammar.toExpr_listing] at h
          split at h <;> contradiction

namespace Scientific

theorem Spelled.evaluate_ne_emptyInput {text : List Char} (h : Spelled text) (hne : text ≠ [])
    (mode : AngleMode) : evaluate mode text ≠ .malformed .emptyInput := by
  intro hfault
  rw [evaluate] at hfault
  split at hfault
  · next e hcompile =>
      obtain rfl : e = .emptyInput := Outcome.malformed.inj hfault
      have hreading := h.reading (written_of_emptyInput hcompile)
      cases hreading
      exact hne rfl
  · next expr hexpr =>
      rw [h.mentionsVar_of_compile hexpr, if_neg Bool.false_ne_true] at hfault
      exact Outcome.ofFloat_ne_malformed _ _ hfault

/-! ### Keys that set the result -/

/-- The key evaluates a text or puts the result back to zero. -/
def setsResult (s : Scientific) : Action → Bool
  | .digit c => c.isDigit
  | .function _ | .constant _ | .negate | .clear => true
  | .equals | .backspace | .setMode _ => !s.expression.isEmpty
  | .point | .operator _ | .openParen | .closeParen => false

/-- No key of the row sets the result. -/
def KeepsResult (s : Scientific) : List Action → Prop
  | [] => True
  | key :: rest => s.setsResult key = false ∧ (s.step key).KeepsResult rest

def IsLoneMinus (text : List Char) : Prop :=
  text = ['−'] ∨ text = ['-']

theorem result_step_of_not_setsResult {s : Scientific} {key : Action}
    (h : s.setsResult key = false) : (s.step key).result = s.result := by
  cases key with
  | digit c => rw [step, digit, show c.isDigit = false from h, if_neg Bool.false_ne_true]
  | point | closeParen => exact result_step s rfl
  | operator op =>
      simp only [step, operator]
      generalize (if op = BinaryOp.sub then s.expression else s.continued) = expression
      split <;> rfl
  | openParen => rfl
  | equals =>
      rw [step, equals, if_pos (by simpa [setsResult] using h)]
  | backspace =>
      rw [step, backspace, if_pos (by simpa [setsResult] using h)]
  | setMode mode =>
      rw [step, setMode, if_pos (by simpa [setsResult] using h)]
  | function _ | constant _ | clear | negate => contradiction

/-- A key that does not set the result takes nothing away. -/
theorem expression_step_ne_nil {s : Scientific} {key : Action} (h : s.setsResult key = false)
    (hne : s.expression ≠ []) : (s.step key).expression ≠ [] := by
  have hempty : s.expression.isEmpty = false := by simpa using hne
  cases key with
  | digit c => rwa [step, digit, show c.isDigit = false from h, if_neg Bool.false_ne_true]
  | point =>
      simp only [step, point]
      split
      · exact hne
      · split <;> simp [edit]
  | operator op =>
      simp only [step, operator]
      generalize (if op = BinaryOp.sub then s.expression else s.continued) = expression
      split
      · exact hne
      · simp [edit]
  | openParen | closeParen => simp [step, edit]
  | equals | backspace | setMode _ =>
      rw [setsResult, hempty] at h
      contradiction
  | function _ | constant _ | clear | negate => contradiction

theorem result_run_of_keepsResult {s : Scientific} {keys : List Action}
    (h : s.KeepsResult keys) : (s.run keys).result = s.result := by
  induction keys generalizing s with
  | nil => rfl
  | cons key rest ih =>
      obtain ⟨hkey, hrest⟩ := h
      exact (ih hrest).trans (result_step_of_not_setsResult hkey)

theorem expression_run_ne_nil {s : Scientific} {keys : List Action} (h : s.KeepsResult keys)
    (hne : s.expression ≠ []) : (s.run keys).expression ≠ [] := by
  induction keys generalizing s with
  | nil => exact hne
  | cons key rest ih =>
      obtain ⟨hkey, hrest⟩ := h
      exact ih hrest (expression_step_ne_nil hkey hne)

theorem keepsResult_concat {s : Scientific} {keys : List Action} {key : Action} :
    s.KeepsResult (keys ++ [key]) ↔ s.KeepsResult keys ∧ (s.run keys).setsResult key = false := by
  induction keys generalizing s with
  | nil => simp [KeepsResult, run]
  | cons first rest ih =>
      rw [List.cons_append, KeepsResult, KeepsResult, ih, and_assoc]
      rfl

/-- A run has a last key that set the result, unless none did. -/
theorem keepsResult_or_exists (s : Scientific) (actions : List Action) :
    s.KeepsResult actions ∨
      ∃ (before idle : List Action) (key : Action), actions = before ++ key :: idle ∧
        (s.run before).setsResult key = true ∧ ((s.run before).step key).KeepsResult idle := by
  induction actions using List.reverseRecOn with
  | nil => exact Or.inl trivial
  | append_singleton actions key ih =>
      cases hkey : (s.run actions).setsResult key with
      | true => exact Or.inr ⟨actions, [], key, rfl, hkey, trivial⟩
      | false =>
          rcases ih with hkeeps | ⟨before, idle, last, rfl, hlast, hidle⟩
          · exact Or.inl (keepsResult_concat.mpr ⟨hkeeps, hkey⟩)
          · rw [run_append] at hkey
            exact Or.inr ⟨before, idle ++ [key], last, by simp, hlast,
              keepsResult_concat.mpr ⟨hidle, hkey⟩⟩

/-! ### Results of an emptied expression -/

theorem expression_digit_ne_nil (s : Scientific) {c : Char} (h : c.isDigit = true) :
    (s.digit c).expression ≠ [] := by
  rw [digit, if_pos h]
  simp [reevaluate, edit]

theorem text_ne_nil (key : FunctionKey) : key.text ≠ [] := by
  cases key <;> decide

/-- All that a key which sets the result can do: it evaluates the expression, puts the
result back to zero, completes the expression, or evaluates the empty text. -/
theorem setsResult_cases {s : Scientific} {key : Action} (h : s.setsResult key = true) :
    ((s.step key).Evaluated ∧ (s.step key).expression ≠ []) ∨
      (s.step key).result = .value 0.0 ∨
      (key = .equals ∧ s.expression ≠ [] ∧
        (s.step key).result = evaluate s.mode s.expression) ∨
      (key = .negate ∧ negated s.continued = [] ∧
        (s.step key).result = .malformed .emptyInput) := by
  cases key with
  | digit c =>
      have hdigit : s.step (.digit c) = (s.edit (s.expression ++ [c])).reevaluate := if_pos h
      refine Or.inl ⟨?_, s.expression_digit_ne_nil h⟩
      rw [hdigit]
      rfl
  | function key =>
      refine Or.inl ⟨rfl, ?_⟩
      simp [step, function, reevaluate, edit, text_ne_nil key]
  | constant key => exact Or.inl ⟨rfl, by simp [step, constant, reevaluate, edit]⟩
  | clear => exact Or.inr (Or.inl rfl)
  | equals =>
      have hne : s.expression.isEmpty = false := by simpa [setsResult] using h
      refine Or.inr (Or.inr (Or.inl ⟨rfl, by simpa using hne, ?_⟩))
      rw [step, equals, hne, if_neg Bool.false_ne_true]
  | backspace =>
      have hne : s.expression.isEmpty = false := by simpa [setsResult] using h
      simp only [step, backspace, hne, Bool.false_eq_true, if_false]
      split
      · exact Or.inr (Or.inl rfl)
      · next hkept => exact Or.inl ⟨rfl, fun hnil => hkept (List.isEmpty_iff.mpr hnil)⟩
  | negate =>
      by_cases hempty : negated s.continued = []
      · refine Or.inr (Or.inr (Or.inr ⟨rfl, hempty, ?_⟩))
        rw [step, negate, hempty]
        rfl
      · exact Or.inl ⟨rfl, hempty⟩
  | setMode mode =>
      have hne : s.expression.isEmpty = false := by simpa [setsResult] using h
      refine Or.inl ?_
      rw [step, setMode, hne, if_neg Bool.false_ne_true]
      exact ⟨rfl, List.isEmpty_eq_false_iff.mp hne⟩
  | point | operator _ | openParen | closeParen => contradiction

theorem negated_eq_nil_iff {text : List Char} : negated text = [] ↔ IsLoneMinus text := by
  rw [IsLoneMinus]
  unfold negated
  split <;> simp_all

section Typed
variable {s : Scientific} (h : s.Typed)
include h

/-- The text of a result is no lone minus. -/
theorem not_isLoneMinus_of_reusable {text : List Char} (htext : s.reusable? = some text) :
    ¬ IsLoneMinus text := by
  rw [reusable?] at htext
  split at htext
  · next v hv =>
      split at htext
      · contradiction
      · rw [← Option.some.inj htext, Display.number_eq (h.ordinary.isFinite v hv), signed]
        have hne := (Display.readsAs_magnitudeText (Double.pattern v)).nonempty
        split
        · simp [IsLoneMinus, hne]
        · have hlast : ∀ c ∈ (Display.magnitudeText (Double.pattern v)).getLast?,
              Token.inMantissa c = true := fun c => inMantissa_last
          rintro (heq | heq)
          all_goals
            rw [heq] at hlast
            exact absurd (hlast _ rfl) (by decide)
  · contradiction

theorem negated_continued_eq_nil_iff :
    negated s.continued = [] ↔ IsLoneMinus s.expression := by
  rw [negated_eq_nil_iff, continued]
  split
  · next hempty =>
      rw [List.isEmpty_iff.mp hempty]
      refine iff_of_false ?_ (by simp [IsLoneMinus])
      cases hreusable : s.reusable? with
      | none => simp [IsLoneMinus]
      | some text => exact not_isLoneMinus_of_reusable h hreusable
  · exact Iff.rfl

/-- A key that sets the result makes it the fault of the empty text only where the sign
key takes a lone minus away. -/
theorem result_step_eq_emptyInput_iff {key : Action} (hkey : s.setsResult key = true) :
    (s.step key).result = .malformed .emptyInput ↔
      key = .negate ∧ IsLoneMinus s.expression := by
  constructor
  · intro hfault
    rcases setsResult_cases hkey with
      ⟨hresult, hne⟩ | hzero | ⟨-, hne, hresult⟩ | ⟨hnegate, hempty, -⟩
    · rw [hresult] at hfault
      exact absurd hfault ((h.step key).spelled.evaluate_ne_emptyInput hne _)
    · rw [hzero] at hfault
      contradiction
    · rw [hresult] at hfault
      exact absurd hfault (h.spelled.evaluate_ne_emptyInput hne _)
    · exact ⟨hnegate, (negated_continued_eq_nil_iff h).mp hempty⟩
  · rintro ⟨rfl, hminus⟩
    rw [step, negate, (negated_continued_eq_nil_iff h).mpr hminus]
    rfl

end Typed

/-! ### Every run -/

/-- The result of an emptied expression is zero, the value of the expression that the
equals key completed last, or the fault of the empty text. -/
theorem result_of_emptied {s : Scientific} {actions : List Action}
    (hstart : s.result = .value 0.0) (hempty : (s.run actions).expression = []) :
    (s.run actions).result = .value 0.0 ∨
      (∃ before idle : List Action, actions = before ++ .equals :: idle ∧
        (s.run before).expression ≠ [] ∧
        (s.run actions).result = evaluate (s.run before).mode (s.run before).expression ∧
        ((s.run before).step .equals).KeepsResult idle) ∨
      (s.run actions).result = .malformed .emptyInput := by
  rcases s.keepsResult_or_exists actions with
    hkeeps | ⟨before, idle, key, rfl, hkey, hidle⟩
  · exact Or.inl ((result_run_of_keepsResult hkeeps).trans hstart)
  have hrun : s.run (before ++ key :: idle) = ((s.run before).step key).run idle := by
    rw [run_append]
    rfl
  rw [hrun] at hempty ⊢
  rw [result_run_of_keepsResult hidle]
  rcases setsResult_cases hkey with ⟨-, hne⟩ | hzero | ⟨rfl, hne, hresult⟩ | ⟨-, -, hfault⟩
  · exact absurd hempty (expression_run_ne_nil hidle hne)
  · exact Or.inl hzero
  · exact Or.inr (Or.inl ⟨before, idle, rfl, hne, hresult, hidle⟩)
  · exact Or.inr (Or.inr hfault)

/-- The pad shows the fault of the empty text exactly when the last key that set the
result was the sign key, and it took away a lone minus.  Any other result of an empty
expression is zero or the value of what the equals key completed last. -/
theorem result_eq_emptyInput_run_iff (mode : AngleMode) (actions : List Action) :
    ((run (start mode) actions).result = .malformed .emptyInput ↔
      ∃ before idle : List Action, actions = before ++ .negate :: idle ∧
        IsLoneMinus (run (start mode) before).expression ∧
        ((run (start mode) before).step .negate).KeepsResult idle) ∧
      ((run (start mode) actions).expression = [] →
        (run (start mode) actions).result ≠ .malformed .emptyInput →
          (run (start mode) actions).result = .value 0.0 ∨
            ∃ before idle : List Action, actions = before ++ .equals :: idle ∧
              (run (start mode) before).expression ≠ [] ∧
              (run (start mode) actions).result =
                evaluate (run (start mode) before).mode (run (start mode) before).expression ∧
              ((run (start mode) before).step .equals).KeepsResult idle) := by
  refine ⟨⟨?_, ?_⟩, ?_⟩
  · intro hfault
    rcases (start mode).keepsResult_or_exists actions with
      hkeeps | ⟨before, idle, key, rfl, hkey, hidle⟩
    · rw [result_run_of_keepsResult hkeeps] at hfault
      contradiction
    · rw [run_append] at hfault
      obtain ⟨rfl, hminus⟩ := (result_step_eq_emptyInput_iff (typed_run mode before) hkey).mp
        ((result_run_of_keepsResult hidle).symm.trans hfault)
      exact ⟨before, idle, rfl, hminus, hidle⟩
  · rintro ⟨before, idle, rfl, hminus, hidle⟩
    rw [run_append]
    refine (result_run_of_keepsResult hidle).trans ?_
    exact (result_step_eq_emptyInput_iff (typed_run mode before) rfl).mpr ⟨rfl, hminus⟩
  · intro hempty hresult
    rcases result_of_emptied rfl hempty with hzero | hequals | hfault
    · exact Or.inl hzero
    · exact Or.inr hequals
    · exact absurd hfault hresult

/-- Twice the sign key on a cleared pad: nothing is typed, and the result is not zero
as before. -/
theorem result_run_negate_negate :
    (run (start .degrees) [.negate, .negate]).expression = [] ∧
      (run (start .degrees) [.negate, .negate]).result = .malformed .emptyInput := by
  decide +kernel

end Scientific

end GraphCalc
