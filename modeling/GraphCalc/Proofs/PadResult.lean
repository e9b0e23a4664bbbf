/-
What the scientific pad shows.  Its result is the value of its expression behind
every key but two: the point and the closing parenthesis may give the expression
another value, and the pad does not evaluate behind them.
-/
import GraphCalc.Proofs.TextEnds
import GraphCalc.Scientific
namespace GraphCalc.Scientific

/-- The expression has a value as it stands. -/
def HasValue (s : Scientific) (v : Float) : Prop :=
  evaluate s.mode s.expression = .value v

/-- The result is the one of the expression as it stands. -/
def Evaluated (s : Scientific) : Prop :=
  s.result = evaluate s.mode s.expression

/-- The pad shows the value of what is typed, wherever that has a value. -/
def UpToDate (s : Scientific) : Prop :=
  s.expression ≠ [] → ∀ v : Float, s.HasValue v → s.result = .value v

/-- The keys that may complete an expression and are not followed by an
evaluation. -/
def Action.isSilent : Action → Bool
  | .point | .closeParen => true
  | _ => false

/-- The key gives the expression a value that is not the result, and the pad keeps
the result. -/
def FallsBehind (s : Scientific) (key : Action) : Prop :=
  key.isSilent = true ∧ ∃ v : Float, (s.step key).HasValue v ∧ s.result ≠ .value v

/-- The key changes nothing. -/
def Ignores (s : Scientific) (key : Action) : Prop :=
  s.step key = s

theorem Evaluated.upToDate {s : Scientific} (h : s.Evaluated) : s.UpToDate := by
  intro _ v hv
  rw [h]
  exact hv

theorem upToDate_of_empty {s : Scientific} (h : s.expression = []) : s.UpToDate :=
  fun hne => absurd h hne

theorem expression_ne_nil {s : Scientific} {v : Float} (h : s.HasValue v) :
    s.expression ≠ [] := by
  intro hempty
  rw [HasValue, hempty] at h
  contradiction

theorem not_upToDate_iff {s : Scientific} :
    ¬ s.UpToDate ↔ ∃ v : Float, s.HasValue v ∧ s.result ≠ .value v := by
  constructor
  · intro h
    simp only [UpToDate, not_forall] at h
    obtain ⟨_, v, hv, hresult⟩ := h
    exact ⟨v, hv, hresult⟩
  · rintro ⟨v, hv, hresult⟩ h
    exact hresult (h (expression_ne_nil hv) v hv)

/-! ### Keys behind which the pad is up to date -/

theorem upToDate_reevaluate (s : Scientific) : s.reevaluate.UpToDate :=
  Evaluated.upToDate rfl

/-- Behind a sign that ends no value there is nothing to show. -/
theorem upToDate_edit_concat (s : Scientific) (text : List Char) {c : Char} {token : Token}
    (hsymbol : Token.ofSymbol? c = some token) (hends : token.endsValue = false) :
    (s.edit (text ++ [c])).UpToDate :=
  fun _ v hv => absurd hv (evaluate_concat_ne_value hsymbol hends s.mode text v)

theorem ofSymbol?_glyph (op : BinaryOp) : Token.ofSymbol? op.glyph = some op.token := by
  cases op <;> rfl

theorem endsValue_token (op : BinaryOp) : op.token.endsValue = false := by
  cases op <;> rfl

theorem digit_upToDate (s : Scientific) (c : Char) :
    (s.digit c).UpToDate ∨ s.digit c = s := by
  rw [digit]
  split
  · exact Or.inl (upToDate_reevaluate _)
  · exact Or.inr rfl

theorem operator_upToDate (s : Scientific) (op : BinaryOp) :
    (s.operator op).UpToDate ∨ s.operator op = s := by
  simp only [operator]
  generalize (if op = BinaryOp.sub then s.expression else s.continued) = expression
  split
  · exact Or.inr rfl
  · exact Or.inl (upToDate_edit_concat s _ (ofSymbol?_glyph op) (endsValue_token op))

theorem equals_upToDate (s : Scientific) : s.equals.UpToDate ∨ s.equals = s := by
  rw [equals]
  split
  · exact Or.inr rfl
  · exact Or.inl (upToDate_of_empty rfl)

theorem backspace_upToDate (s : Scientific) : s.backspace.UpToDate ∨ s.backspace = s := by
  simp only [backspace]
  split
  · exact Or.inr rfl
  · split
    · next hempty => exact Or.inl (upToDate_of_empty (List.isEmpty_iff.mp hempty))
    · exact Or.inl (upToDate_reevaluate _)

theorem setMode_upToDate (s : Scientific) (mode : AngleMode) : (s.setMode mode).UpToDate := by
  rw [setMode]
  split
  · next hempty => exact upToDate_of_empty (List.isEmpty_iff.mp hempty)
  · exact upToDate_reevaluate _

/-- Every key but the two silent ones leaves the pad up to date, or as it was. -/
theorem step_upToDate (s : Scientific) {key : Action} (h : key.isSilent = false) :
    (s.step key).UpToDate ∨ s.Ignores key := by
  cases key with
  | digit c => exact digit_upToDate s c
  | operator op => exact operator_upToDate s op
  | function key => exact Or.inl (upToDate_reevaluate _)
  | constant key => exact Or.inl (upToDate_reevaluate _)
  | openParen => exact Or.inl (upToDate_edit_concat s _ rfl rfl)
  | equals => exact equals_upToDate s
  | clear => exact Or.inl (upToDate_of_empty rfl)
  | backspace => exact backspace_upToDate s
  | negate => exact Or.inl (upToDate_reevaluate _)
  | setMode mode => exact Or.inl (setMode_upToDate s mode)
  | point | closeParen => contradiction

/-! ### The silent keys -/

theorem result_step (s : Scientific) {key : Action} (h : key.isSilent = true) :
    (s.step key).result = s.result := by
  cases key with
  | point =>
      simp only [step, point]
      split
      · rfl
      · split <;> rfl
  | closeParen => rfl
  | _ => contradiction

/-- Behind one key the pad is not up to date when the key makes it fall behind, or
changes nothing about a pad that is behind. -/
theorem step_not_upToDate_iff (s : Scientific) (key : Action) :
    ¬ (s.step key).UpToDate ↔ s.FallsBehind key ∨ s.Ignores key ∧ ¬ s.UpToDate := by
  constructor
  · intro h
    cases hsilent : key.isSilent with
    | true =>
        obtain ⟨v, hv, hresult⟩ := not_upToDate_iff.mp h
        rw [result_step s hsilent] at hresult
        exact Or.inl ⟨hsilent, v, hv, hresult⟩
    | false =>
        rcases step_upToDate s hsilent with hdate | hsame
        · exact absurd hdate h
        · rw [hsame] at h
          exact Or.inr ⟨hsame, h⟩
  · rintro (⟨hsilent, v, hv, hresult⟩ | ⟨hsame, h⟩)
    · rw [← result_step s hsilent] at hresult
      exact not_upToDate_iff.mpr ⟨v, hv, hresult⟩
    · rwa [hsame]

/-- A parenthesis that completes an expression is always missed behind an
evaluation: without it the expression had no value. -/
theorem fallsBehind_closeParen {s : Scientific} {v : Float} (hresult : s.Evaluated)
    (hvalue : (s.step .closeParen).HasValue v) : s.FallsBehind .closeParen := by
  refine ⟨rfl, v, hvalue, ?_⟩
  rw [hresult]
  exact evaluate_ne_value_of_close hvalue v

/-- The characters that end an operand are signs, and only the closing parenthesis
ends a value. -/
theorem ofSymbol?_of_endsOperand {c : Char} (h : endsOperand c = true) :
    ∃ token : Token, Token.ofSymbol? c = some token ∧ (token.endsValue = false ∨ c = ')') := by
  simp only [endsOperand, isOperatorGlyph, Bool.or_eq_true, decide_eq_true_eq] at h
  rcases h with (((((((rfl | rfl) | rfl) | rfl) | rfl) | rfl) | rfl) | rfl)
  · exact ⟨.plus, rfl, Or.inl rfl⟩
  · exact ⟨.minus, rfl, Or.inl rfl⟩
  · exact ⟨.times, rfl, Or.inl rfl⟩
  · exact ⟨.divide, rfl, Or.inl rfl⟩
  · exact ⟨.power, rfl, Or.inl rfl⟩
  · exact ⟨.minus, rfl, Or.inl rfl⟩
  · exact ⟨.leftParen, rfl, Or.inl rfl⟩
  · exact ⟨.rightParen, rfl, Or.inr rfl⟩

theorem endsOperand_of_inMantissa {c : Char} (h : Token.inMantissa c = true) :
    endsOperand c = false := by
  cases hends : endsOperand c with
  | false => rfl
  | true =>
      obtain ⟨token, hsymbol, -⟩ := ofSymbol?_of_endsOperand hends
      rw [(Token.of_ofSymbol? hsymbol).1] at h
      contradiction

/-- The number at the end of an expression is in the last operand. -/
theorem endsWithoutPoint_of_lastOperand {expression : List Char}
    (h : '.' ∉ lastOperand expression) : Token.EndsWithoutPoint expression := by
  rintro digits ⟨rest, rfl⟩ hmantissa c hc
  have hkeeps : ∀ c ∈ digits.reverse, (!endsOperand c) = true := by
    intro c hc
    rw [endsOperand_of_inMantissa (hmantissa c (List.mem_reverse.mp hc)), Bool.not_false]
  have hmem : c ∈ lastOperand (rest ++ digits) := by
    rw [lastOperand, List.reverse_append, List.takeWhile_append_of_pos hkeeps, List.mem_reverse]
    exact List.mem_append_left _ (List.mem_reverse.mpr hc)
  have hin := hmantissa c hc
  rw [Token.inMantissa, Bool.or_eq_true, decide_eq_true_eq] at hin
  rcases hin with hdigit | rfl
  · exact hdigit
  · exact absurd hmem h

theorem endsOperand_of_lastOperand {text : List Char} {last : Char}
    (h : lastOperand (text ++ [last]) = []) : endsOperand last = true := by
  cases hends : endsOperand last with
  | true => rfl
  | false =>
      rw [lastOperand, List.reverse_append, List.reverse_singleton, List.singleton_append,
        List.takeWhile_cons_of_pos (by simp [hends])] at h
      simp at h

/-- A point behind a value that is shown changes the value only behind a closing
parenthesis. -/
theorem closeParen_of_fallsBehind_point {s : Scientific} {v : Float} (hresult : s.Evaluated)
    (hvalue : s.HasValue v) (h : s.FallsBehind .point) :
    ∃ text : List Char, s.expression = text ++ [')'] := by
  obtain ⟨-, w, hw, hne⟩ := h
  have hshown : s.result = .value v := hresult.trans hvalue
  by_cases hpoint : '.' ∈ lastOperand s.expression
  · have hsame : s.step .point = s := if_pos hpoint
    rw [hsame] at hw
    exact absurd (hresult.trans hw) hne
  by_cases hempty : lastOperand s.expression = []
  · obtain ⟨text, last, heq⟩ := (List.eq_nil_or_concat' s.expression).resolve_left
      (expression_ne_nil hvalue)
    rw [heq] at hempty
    obtain ⟨token, hsymbol, hends | hclose⟩ :=
      ofSymbol?_of_endsOperand (endsOperand_of_lastOperand hempty)
    · rw [HasValue, heq] at hvalue
      exact absurd hvalue (evaluate_concat_ne_value hsymbol hends s.mode text v)
    · exact ⟨text, by rw [heq, hclose]⟩
  · have hstep : s.step .point = s.edit (s.expression ++ ['.']) := by
      simp [step, point, hpoint, hempty]
    rw [hstep] at hw
    have hkept : w = v :=
      value_concat_point (endsWithoutPoint_of_lastOperand hpoint) hvalue hw
    rw [hkept] at hne
    exact absurd hshown hne

/-! ### Every run -/

theorem run_append (s : Scientific) (first rest : List Action) :
    s.run (first ++ rest) = (s.run first).run rest := by
  rw [run, List.foldl_append]
  rfl

theorem run_ignored {s : Scientific} {idle : List Action}
    (h : ∀ key ∈ idle, s.Ignores key) : s.run idle = s := by
  induction idle with
  | nil => rfl
  | cons key idle ih =>
      have hkey : s.step key = s := h key List.mem_cons_self
      have hidle := ih (fun other hother => h other (List.mem_cons_of_mem key hother))
      rw [run, List.foldl_cons, hkey]
      exact hidle

theorem run_cons_ignored {s : Scientific} {key : Action} {idle : List Action}
    (h : ∀ other ∈ idle, (s.step key).Ignores other) : s.run (key :: idle) = s.step key :=
  run_ignored h

/-- A run that ends behind its text has a last key that changed something, and that
key made the pad fall behind. -/
theorem exists_fallsBehind (mode : AngleMode) {actions : List Action}
    (h : ¬ (run (start mode) actions).UpToDate) :
    ∃ (before idle : List Action) (key : Action),
      actions = before ++ key :: idle ∧ (run (start mode) before).FallsBehind key ∧
        ∀ other ∈ idle, ((run (start mode) before).step key).Ignores other := by
  induction actions using List.reverseRecOn with
  | nil => exact absurd (upToDate_of_empty rfl) h
  | append_singleton actions key ih =>
      rw [run_append] at h
      rcases (step_not_upToDate_iff _ key).mp h with hbehind | ⟨hsame, hbefore⟩
      · exact ⟨actions, [], key, rfl, hbehind, by simp⟩
      · obtain ⟨before, idle, last, rfl, hbehind, hidle⟩ := ih hbefore
        rw [run_append, run_cons_ignored hidle] at hsame
        refine ⟨before, idle ++ [key], last, by simp, hbehind, ?_⟩
        intro other hother
        rcases List.mem_append.mp hother with hother | hother
        · exact hidle other hother
        · rwa [List.mem_singleton.mp hother]

/-- The pad fails to show the value of what is typed exactly when the last key that
changed anything was a point or a closing parenthesis with which the expression
has another value than the result before.  A closing parenthesis behind an
evaluation always does this, and a point behind a value that is shown does it
only where a closing parenthesis is before it. -/
theorem not_upToDate_run_iff (mode : AngleMode) (actions : List Action) :
    (¬ (run (start mode) actions).UpToDate ↔
      ∃ (before idle : List Action) (key : Action),
        actions = before ++ key :: idle ∧ (run (start mode) before).FallsBehind key ∧
          ∀ other ∈ idle, ((run (start mode) before).step key).Ignores other) ∧
      ((run (start mode) actions).Evaluated →
        (∀ v : Float, ((run (start mode) actions).step .closeParen).HasValue v →
            (run (start mode) actions).FallsBehind .closeParen) ∧
          (∀ v : Float, (run (start mode) actions).HasValue v →
            (run (start mode) actions).FallsBehind .point →
              ∃ text : List Char, (run (start mode) actions).expression = text ++ [')'])) := by
  refine ⟨⟨exists_fallsBehind mode, ?_⟩, ?_⟩
  · rintro ⟨before, idle, key, rfl, hbehind, hidle⟩
    rw [run_append, run_cons_ignored hidle]
    exact (step_not_upToDate_iff _ key).mpr (Or.inl hbehind)
  · intro hresult
    constructor
    · intro v hvalue
      exact fallsBehind_closeParen hresult hvalue
    · intro v hvalue hbehind
      exact closeParen_of_fallsBehind_point hresult hvalue hbehind

/-- A number in parentheses: behind the closing one the pad still shows the error
of the open one. -/
theorem not_upToDate_run_group :
    ¬ (run (start .degrees) [.openParen, .digit '2', .closeParen]).UpToDate := by
  refine not_upToDate_iff.mpr ⟨2.0, ?_, ?_⟩
  · change evaluate .degrees ['(', '2', ')'] = .value 2.0
    decide +kernel
  · have hresult : (run (start .degrees) [.openParen, .digit '2', .closeParen]).result =
        .malformed .unclosedParenthesis := by decide +kernel
    rw [hresult]
    exact Outcome.noConfusion

end GraphCalc.Scientific
