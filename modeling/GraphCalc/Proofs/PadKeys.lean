/-
What the keys leave on the scientific pad.  Behind every run of keys the expression
is a row of units, and the result is finite or an ordinary fault.  So the backspace
key takes one unit away, and no part of a function name is ever left.
-/
import GraphCalc.Proofs.NumberReading
import GraphCalc.Proofs.PadResult
import GraphCalc.Proofs.TextFaults
namespace GraphCalc

/-! ### Results -/

theorem Outcome.isFinite_of_ofFloat {v w : Float} (h : ofFloat w = .value v) :
    v.isFinite = true := by
  rw [ofFloat] at h
  split at h
  · contradiction
  · next hnan =>
      split at h
      · contradiction
      · next hinf =>
          rw [Double.isNaN_eq, decide_eq_true_eq, Nat.not_lt] at hnan
          rw [Double.isInf_eq, decide_eq_true_eq] at hinf
          rw [← Outcome.value.inj h, Double.isFinite_eq]
          exact decide_eq_true (Nat.lt_of_le_of_ne hnan hinf)

/-- The value of a text is finite. -/
theorem isFinite_of_evaluate {mode : AngleMode} {text : List Char} {v : Float}
    (h : evaluate mode text = .value v) : v.isFinite = true := by
  obtain ⟨-, -, e, -, -, -, hvalue⟩ := exists_tokens_of_value h
  exact Outcome.isFinite_of_ofFloat hvalue

namespace Scientific

open Token

theorem spelled_magnitudeText (code : ℕ) : Spelled (Display.magnitudeText code) := by
  refine Spelled.of_forall (fun c hc => ?_)
  rw [Display.magnitudeText] at hc
  split at hc
  · rw [Display.poweredText, List.mem_append, List.mem_cons] at hc
    rcases hc with hmantissa | rfl | hpower
    · exact isSingle_of_inMantissa (Display.inMantissa_of_mem_mantissaText hmantissa)
    · decide
    · rcases Display.isDigit_of_mem_powerText hpower with rfl | rfl | hdigit
      · decide
      · decide
      · exact isSingle_of_isDigit hdigit
  split at hc
  · exact isSingle_of_isDigit (isDigit_of_mem_numeral hc)
  · exact isSingle_of_inMantissa (inMantissa_of_mem_positional hc)

/-- A result begins an expression as a row of units. -/
theorem spelled_number {v : Float} (h : v.isFinite = true) : Spelled (Display.number v) := by
  rw [Display.number_eq h, signed]
  split
  · exact (spelled_magnitudeText _).cons (by decide)
  · exact spelled_magnitudeText _

/-- A result that the keys can have: a finite value, or a fault of their texts. -/
structure Ordinary (result : Outcome) : Prop where
  isFinite : ∀ v : Float, result = .value v → v.isFinite = true
  isForeign : ∀ e : SyntaxError, result = .malformed e → e.isForeign = false

theorem ordinary_evaluate (mode : AngleMode) {text : List Char} (h : Spelled text) :
    Ordinary (evaluate mode text) where
  isFinite := fun _ => isFinite_of_evaluate
  isForeign := fun _ => h.isForeign_of_evaluate

theorem ordinary_zero : Ordinary (.value 0.0) where
  isFinite := by
    intro v hv
    rw [← Outcome.value.inj hv]
    decide +kernel
  isForeign := fun _ h => Outcome.noConfusion h

/-! ### One key -/

/-- The pad as the keys leave it. -/
structure Typed (s : Scientific) : Prop where
  spelled : Spelled s.expression
  ordinary : Ordinary s.result

namespace Typed
variable {s : Scientific} (h : s.Typed)
include h

theorem edit {text : List Char} (htext : Spelled text) : (s.edit text).Typed :=
  ⟨htext, h.ordinary⟩

theorem edit_append {text : List Char} (htext : Spelled text) :
    (s.edit (s.expression ++ text)).Typed :=
  h.edit (h.spelled.append htext)

theorem edit_concat {c : Char} (hc : isSingle c = true) :
    (s.edit (s.expression ++ [c])).Typed :=
  h.edit_append (Spelled.of_isUnit (.single hc))

theorem reevaluate : s.reevaluate.Typed :=
  ⟨h.spelled, ordinary_evaluate s.mode h.spelled⟩

theorem reusable {text : List Char} (htext : s.reusable? = some text) : Spelled text := by
  rw [reusable?] at htext
  split at htext
  · next v hv =>
      split at htext
      · contradiction
      · rw [← Option.some.inj htext]
        exact spelled_number (h.ordinary.isFinite v hv)
  · contradiction

theorem continued : Spelled s.continued := by
  rw [Scientific.continued]
  split
  · cases hreusable : s.reusable? with
    | none => exact Spelled.nil
    | some text => exact h.reusable hreusable
  · exact h.spelled

theorem digit (c : Char) : (s.digit c).Typed := by
  rw [Scientific.digit]
  split
  · next hdigit => exact (h.edit_concat (isSingle_of_isDigit hdigit)).reevaluate
  · exact h

theorem point : s.point.Typed := by
  simp only [Scientific.point]
  split
  · exact h
  · split
    · exact h.edit_append (Spelled.of_forall (List.all_eq_true.mp (by decide)))
    · exact h.edit_concat (by decide)

theorem operator (op : BinaryOp) : (s.operator op).Typed := by
  obtain ⟨text, htext⟩ :
      ∃ text, text = if op = .sub then s.expression else s.continued := ⟨_, rfl⟩
  have hspelled : Spelled text := by
    rw [htext]
    split
    · exact h.spelled
    · exact h.continued
  have hglyph : Spelled [op.glyph] := Spelled.of_isUnit (.single (isSingle_glyph op))
  simp only [Scientific.operator, ← htext]
  split
  · exact h
  · refine h.edit (Spelled.append ?_ hglyph)
    split
    · next last hlast =>
        split
        · next hoperator =>
            -- the operator that is replaced is a unit, not the end of a function name
            obtain ⟨front, hfront⟩ := List.getLast?_eq_some_iff.mp hlast
            have hlast' : last ≠ '(' := by
              rintro rfl
              contradiction
            rw [hfront] at hspelled ⊢
            rw [List.dropLast_concat]
            exact hspelled.dropLast hlast'
        · exact hspelled
    · exact hspelled

theorem function (key : FunctionKey) : (s.function key).Typed := by
  have htext : Spelled (if key.followsOperand then s.continued else s.expression) := by
    split
    · exact h.continued
    · exact h.spelled
  exact (h.edit (htext.append (spelled_text key))).reevaluate

theorem constant (key : Constant) : (s.constant key).Typed :=
  (h.edit_concat (by cases key <;> decide)).reevaluate

theorem equals : s.equals.Typed := by
  rw [Scientific.equals]
  split
  · exact h
  · exact ⟨Spelled.nil, ordinary_evaluate s.mode h.spelled⟩

theorem backspace : s.backspace.Typed := by
  have hshorter : (s.edit (withoutLast s.expression)).Typed := h.edit h.spelled.withoutLast
  simp only [Scientific.backspace]
  split
  · exact h
  · split
    · exact ⟨hshorter.spelled, ordinary_zero⟩
    · exact hshorter.reevaluate

theorem negate : s.negate.Typed := by
  refine (h.edit ?_).reevaluate
  have htext := h.continued
  unfold negated
  split
  · next heq => exact (heq ▸ htext).tail (by decide)
  · next heq => exact (heq ▸ htext).tail (by decide)
  · exact htext.cons (by decide)

theorem setMode (mode : AngleMode) : (s.setMode mode).Typed := by
  have hmode : ({ s with mode } : Scientific).Typed := ⟨h.spelled, h.ordinary⟩
  rw [Scientific.setMode]
  split
  · exact hmode
  · exact hmode.reevaluate

/-- Every key keeps the expression a row of units. -/
theorem step (key : Action) : (s.step key).Typed := by
  cases key with
  | digit c => exact h.digit c
  | point => exact h.point
  | operator op => exact h.operator op
  | function key => exact h.function key
  | constant key => exact h.constant key
  | openParen | closeParen => exact h.edit_concat (by decide)
  | equals => exact h.equals
  | clear => exact ⟨Spelled.nil, ordinary_zero⟩
  | backspace => exact h.backspace
  | negate => exact h.negate
  | setMode mode => exact h.setMode mode

end Typed

/-! ### Every run -/

theorem typed_start (mode : AngleMode) : (start mode).Typed :=
  ⟨Spelled.nil, ordinary_zero⟩

theorem typed_run (mode : AngleMode) (actions : List Action) :
    (run (start mode) actions).Typed := by
  induction actions using List.reverseRecOn with
  | nil => exact typed_start mode
  | append_singleton actions key ih =>
      rw [run_append]
      exact ih.step key

theorem expression_backspace (s : Scientific) :
    (s.step .backspace).expression = withoutLast s.expression := by
  simp only [step, backspace]
  split
  · next hempty =>
      rw [List.isEmpty_iff.mp hempty]
      rfl
  · split <;> rfl

/-- Behind every run of keys the expression is cut into units in exactly one way,
the backspace key takes the last of them away, and the result is no fault that only
other texts have. -/
theorem run_spells (mode : AngleMode) (actions : List Action) :
    (∃ units : List (List Char), Spells units (run (start mode) actions).expression ∧
      (∀ others : List (List Char),
        Spells others (run (start mode) actions).expression → others = units) ∧
      ((run (start mode) actions).step .backspace).expression = units.dropLast.flatten) ∧
      ∀ e : SyntaxError,
        (run (start mode) actions).result = .malformed e → e.isForeign = false := by
  have htyped := typed_run mode actions
  obtain ⟨units, hunits⟩ := htyped.spelled
  refine ⟨⟨units, hunits, fun others hothers => hunits.unique hothers, ?_⟩,
    htyped.ordinary.isForeign⟩
  rw [expression_backspace, hunits.withoutLast_eq]

/-- Of two names that end alike the one that was typed is taken away as a whole. -/
theorem run_spells_name :
    Spells [['e'], "asin(".toList]
        (run (start .degrees) [.constant .euler, .function .asin]).expression ∧
      ((run (start .degrees) [.constant .euler, .function .asin]).step
        .backspace).expression = ['e'] := by
  have hunits : Spells [['e'], "asin(".toList]
      (run (start .degrees) [.constant .euler, .function .asin]).expression := by
    refine ⟨?_, by decide +kernel⟩
    intro unit hunit
    rcases List.mem_pair.mp hunit with rfl | rfl
    · exact .single (by decide)
    · exact .block (by decide)
  obtain ⟨⟨units, -, hunique, hshorter⟩, -⟩ :=
    run_spells .degrees [.constant .euler, .function .asin]
  refine ⟨hunits, hshorter.trans ?_⟩
  rw [← hunique _ hunits]
  decide

/-- Behind every run of keys the tokens have no more of Euler's constant than the
expression has of its letter, and as many exactly when no e stands between a digit
or a point and a power. -/
theorem count_euler_run (mode : AngleMode) (actions : List Action) {tokens : List Token}
    (h : tokenize (run (start mode) actions).expression = .ok tokens) :
    tokens.count .euler ≤ (run (start mode) actions).expression.count 'e' ∧
      (tokens.count .euler = (run (start mode) actions).expression.count 'e' ↔
        hasPower (run (start mode) actions).expression = false) := by
  have hspelled := (typed_run mode actions).spelled
  rw [tokenize] at h
  cases hwritten : written (run (start mode) actions).expression with
  | error e =>
      rw [hwritten] at h
      contradiction
  | ok before =>
      rw [hwritten] at h
      obtain rfl : withProducts before = tokens := Except.ok.inj h
      rw [count_withProducts Token.noConfusion]
      exact (hspelled.reading hwritten).count_euler

/-- Behind a sign the letter is the constant, and between two digits it is not. -/
theorem count_euler_run_both :
    tokenize (run (start .degrees) [.digit '2', .constant .euler, .digit '3', .operator .add,
        .constant .euler]).expression = .ok [.number 2000.0, .plus, .euler] ∧
      hasPower (run (start .degrees) [.digit '2', .constant .euler, .digit '3', .operator .add,
        .constant .euler]).expression = true := by
  have htokens : tokenize (run (start .degrees) [.digit '2', .constant .euler, .digit '3',
      .operator .add, .constant .euler]).expression = .ok [.number 2000.0, .plus, .euler] := by
    decide +kernel
  refine ⟨htokens, ?_⟩
  have hcount := (count_euler_run .degrees _ htokens).2
  rw [← Bool.not_eq_false, ← hcount]
  decide +kernel

/-- The letter between two digits is the mark of a power, not the constant. -/
theorem count_euler_ne_of_power :
    ∃ tokens : List Token,
      tokenize (run (start .degrees) [.digit '2', .constant .euler, .digit '3']).expression =
          .ok tokens ∧
        tokens.count .euler ≠ (run (start .degrees)
          [.digit '2', .constant .euler, .digit '3']).expression.count 'e' :=
  ⟨[.number 2000.0], by decide +kernel, by decide +kernel⟩

end Scientific

end GraphCalc
