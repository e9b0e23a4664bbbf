/-
Going on with the last result.  On an empty expression every operator key but the
minus takes the last result as its left operand, and so do the keys that stand after
their operand.  The minus key begins a negative number instead, and a factorial sign
behind a negative result belongs to its magnitude.
-/
import GraphCalc.Proofs.Factorials
import GraphCalc.Proofs.PadKeys
import GraphCalc.Proofs.SignedOperands
namespace GraphCalc

open Layout (double)

theorem Outcome.ofFloat_eq_notANumber_iff {v : Float} :
    ofFloat v = .notANumber ↔ v.isNaN = true := by
  rw [ofFloat]
  cases v.isNaN with
  | true => simp
  | false => cases v.isInf <;> simp

namespace Display

/-- The number that the text of a result is read as. -/
def reread (v : Float) : Float :=
  (readBack (Double.pattern v)).toDouble (Double.negative v)

theorem pattern_reread (v : Float) :
    Double.pattern (reread v) = (readBack (Double.pattern v)).pattern double :=
  Double.pattern_ofPattern _ (Decimal.pattern_le_top _)

theorem negative_reread (v : Float) : Double.negative (reread v) = Double.negative v :=
  Double.negative_ofPattern _ (Decimal.pattern_le_top _)

theorem reread_of_nonneg {v : Float} (h : Double.negative v = false) :
    (readBack (Double.pattern v)).toDouble false = reread v := by
  rw [reread, h]

theorem neg_reread_of_negative {v : Float} (h : Double.negative v = true) :
    (readBack (Double.pattern v)).toDouble false = -reread v := by
  rw [reread, h, neg_toDouble, Bool.not_true]

end Display

namespace Scientific

/-! ### A row of digit keys -/

theorem run_concat (s : Scientific) (actions : List Action) (key : Action) :
    s.run (actions ++ [key]) = (s.run actions).step key := by
  rw [run_append]
  rfl

section Digits
variable {digits : List Char} (h : ∀ c ∈ digits, c.isDigit = true)
include h

theorem run_digits (s : Scientific) :
    (s.run (digits.map .digit)).expression = s.expression ++ digits ∧
      (s.run (digits.map .digit)).mode = s.mode := by
  induction digits using List.reverseRecOn with
  | nil => exact ⟨(List.append_nil _).symm, rfl⟩
  | append_singleton digits c ih =>
      obtain ⟨hdigits, hc⟩ := List.forall_mem_append.mp h
      obtain ⟨hexpression, hmode⟩ := ih hdigits
      rw [List.map_append, List.map_singleton, run_concat, step, digit,
        if_pos (hc c List.mem_cons_self)]
      exact ⟨by rw [reevaluate, edit, hexpression, List.append_assoc], hmode⟩

/-- Behind a digit key the result is that of the whole expression. -/
theorem result_run_digits (s : Scientific) (hne : digits ≠ []) :
    (s.run (digits.map .digit)).result = evaluate s.mode (s.expression ++ digits) := by
  obtain ⟨front, c, rfl⟩ := (List.eq_nil_or_concat' digits).resolve_left hne
  obtain ⟨hfront, hc⟩ := List.forall_mem_append.mp h
  obtain ⟨hexpression, hmode⟩ := run_digits hfront s
  rw [List.map_append, List.map_singleton, run_concat, step, digit,
    if_pos (hc c List.mem_cons_self), reevaluate, edit]
  simp only [hexpression, hmode, List.append_assoc]

end Digits

/-! ### The last result -/

/-- Every notation of a magnitude ends with a digit or a point. -/
theorem inMantissa_last {code : ℕ} {c : Char}
    (h : c ∈ (Display.magnitudeText code).getLast?) : Token.inMantissa c = true := by
  have hdigit : ∀ {n : ℕ}, c ∈ numeral n → Token.inMantissa c = true :=
    fun hmem => Token.inMantissa_of_isDigit (isDigit_of_mem_numeral hmem)
  rw [Display.magnitudeText] at h
  split at h
  · rw [Display.poweredText, Display.powerText, ← List.singleton_append, ← List.append_assoc,
      List.getLast?_append_of_ne_nil _ (List.cons_ne_nil _ _), ← List.singleton_append,
      List.getLast?_append_of_ne_nil _ (numeral_ne_nil _)] at h
    exact hdigit (List.mem_of_getLast? h)
  split at h
  · exact hdigit (List.mem_of_getLast? h)
  · exact Token.inMantissa_of_mem_positional (List.mem_of_getLast? h)

/-- No result ends with an operator. -/
theorem isOperatorGlyph_last {negative : Bool} {code : ℕ} {c : Char}
    (h : c ∈ (signed negative (Display.magnitudeText code)).getLast?) :
    isOperatorGlyph c = false := by
  have hlast : c ∈ (Display.magnitudeText code).getLast? := by
    cases negative with
    | false => rwa [Display.signed_false] at h
    | true =>
        have hne := (Display.readsAs_magnitudeText code).nonempty
        rwa [Display.signed_true, ← List.singleton_append,
          List.getLast?_append_of_ne_nil _ hne] at h
  have hends := endsOperand_of_inMantissa (inMantissa_last hlast)
  simp only [endsOperand, Bool.or_eq_false_iff] at hends
  exact hends.1.1.1

/-- The pad holds a result that may begin an expression, and nothing is typed. -/
structure Holds (s : Scientific) (v : Float) : Prop where
  expression : s.expression = []
  result : s.result = .value v
  ne_zero : (v == 0.0) = false
  isFinite : v.isFinite = true

namespace Holds
variable {s : Scientific} {v : Float} (h : s.Holds v)
include h

theorem continued_eq : s.continued = Display.number v := by
  simp only [continued, reusable?, h.expression, h.result, h.ne_zero, List.isEmpty_nil, if_true,
    Bool.false_eq_true, if_false, Option.getD_some]

theorem pattern_pos : 0 < Double.pattern v := by
  have hzero := h.ne_zero
  rw [Double.beq_zero_eq (Nat.le_of_lt (Double.pattern_lt_top h.isFinite)),
    decide_eq_false_iff_not] at hzero
  exact Nat.pos_of_ne_zero hzero

theorem lt_zero_iff : v < 0.0 ↔ Double.negative v = true := by
  rw [Double.lt_zero_iff (Nat.le_of_lt (Double.pattern_lt_top h.isFinite))]
  exact and_iff_left (Nat.ne_of_gt h.pattern_pos)

theorem number_eq :
    Display.number v = signed (Double.negative v) (Display.magnitudeText (Double.pattern v)) := by
  rw [Display.number_eq h.isFinite, decide_eq_true h.pattern_pos, Bool.and_true]

theorem evaluate_reread (mode : AngleMode) :
    evaluate mode (Display.number v) = .value (Display.reread v) := by
  have htop := Display.pattern_readBack_lt_top (Double.pattern_lt_top h.isFinite)
  rw [h.number_eq, Display.evaluate_signed mode _ (Display.readsAs_magnitudeText _),
    ← Display.reread]
  refine Display.ofFloat_eq_value ?_
  rw [Double.isFinite_eq, Display.pattern_reread]
  exact decide_eq_true htop

theorem step_operator {op : BinaryOp} (hop : op ≠ .sub) :
    s.step (.operator op) = s.edit (Display.number v ++ [op.glyph]) := by
  have hempty : (Display.number v).isEmpty = false := by
    simpa [h.number_eq] using Display.signed_ne_nil _ _
  simp only [step, operator, if_neg hop, h.continued_eq, hempty, Bool.false_and,
    Bool.false_eq_true, if_false]
  split
  · next last hlast =>
      rw [h.number_eq] at hlast
      rw [if_neg (by rw [isOperatorGlyph_last hlast]; exact Bool.false_ne_true)]
  · rfl

theorem step_minus : s.step (.operator .sub) = s.edit ['−'] := by
  simp only [step, operator, if_true, h.expression]
  rfl

/-- An operator key and a row of digits. -/
theorem result_operator (op : BinaryOp) {digits : List Char} (hne : digits ≠ [])
    (hdigits : ∀ c ∈ digits, c.isDigit = true) :
    (s.run (.operator op :: digits.map .digit)).result =
      Outcome.ofFloat (if op = .sub then -typedNumber digits
        else op.apply (Display.reread v) (typedNumber digits)) := by
  have hrun : s.run (.operator op :: digits.map .digit) =
      (s.step (.operator op)).run (digits.map .digit) := rfl
  rw [hrun, result_run_digits hdigits _ hne]
  split
  · next hminus =>
      -- the minus key leaves the result aside
      rw [hminus, h.step_minus, edit]
      exact Display.evaluate_minus s.mode rfl hne hdigits
  · next hop =>
      rw [h.step_operator hop, h.number_eq, edit, List.append_assoc]
      exact Display.evaluate_operator _ _ s.mode (ofSymbol?_glyph op) hne hdigits

theorem result_function {key : FunctionKey} (hkey : key.followsOperand = true) :
    (s.step (.function key)).result = evaluate s.mode (Display.number v ++ key.text) := by
  rw [step, function, if_pos hkey, h.continued_eq, reevaluate, edit]

theorem result_square :
    (s.step (.function .square)).result =
      Outcome.ofFloat (BinaryOp.power (Display.reread v) 2.0) := by
  have htwo : typedNumber ['2'] = 2.0 := by decide +kernel
  have htext : FunctionKey.square.text = ['^', '2'] := rfl
  have hsymbol : Token.ofSymbol? '^' = some BinaryOp.pow.token := rfl
  have hdigits : ∀ c ∈ ['2'], c.isDigit = true := List.all_eq_true.mp (by decide)
  rw [h.result_function rfl, h.number_eq, htext,
    Display.evaluate_operator _ _ s.mode hsymbol (List.cons_ne_nil _ _) hdigits, htwo,
    ← Display.reread, BinaryOp.apply]

/-- A factorial key applies to the magnitude of the result. -/
theorem result_factorial :
    (s.step (.function .factorial)).result =
      Outcome.ofFloat (if v < 0.0 then -factorial (-Display.reread v)
        else factorial (Display.reread v)) := by
  have htext : FunctionKey.factorial.text = ['!'] := rfl
  rw [h.result_function rfl, h.number_eq, htext, Display.evaluate_bang]
  by_cases hv : v < 0.0
  · have hnegative := h.lt_zero_iff.mp hv
    rw [if_pos hv, if_pos hnegative, Display.neg_reread_of_negative hnegative]
  · have hnegative := Bool.eq_false_iff.mpr (fun hsign => hv (h.lt_zero_iff.mpr hsign))
    rw [if_neg hv, if_neg (Bool.eq_false_iff.mp hnegative), Display.reread_of_nonneg hnegative]

/-- A negative result is read back as a negative number. -/
theorem reread_lt_zero (hv : v < 0.0) : Display.reread v < 0.0 := by
  have hpattern := Display.pattern_reread v
  have hpos := Display.pattern_readBack_pos (Double.pattern_lt_top h.isFinite) h.pattern_pos
  rw [Double.lt_zero_iff (hpattern ▸ Decimal.pattern_le_top _), Display.negative_reread, hpattern]
  exact ⟨h.lt_zero_iff.mp hv, Nat.ne_of_gt hpos⟩

end Holds

/-- A run that leaves nothing typed and a result that is not zero. -/
theorem holds_run (mode : AngleMode) (actions : List Action) {v : Float}
    (hexpression : (run (start mode) actions).expression = [])
    (hresult : (run (start mode) actions).result = .value v) (hzero : (v == 0.0) = false) :
    (run (start mode) actions).Holds v :=
  ⟨hexpression, hresult, hzero, (typed_run mode actions).ordinary.isFinite v hresult⟩

/-- Behind every run that leaves a result and nothing typed, an operator key and a row
of digits apply the operator to the result as it is read back and to the number that
is typed.  The minus key begins a negative number instead. -/
theorem result_operator_run (mode : AngleMode) (actions : List Action) {v : Float}
    (hexpression : (run (start mode) actions).expression = [])
    (hresult : (run (start mode) actions).result = .value v) (hzero : (v == 0.0) = false)
    (op : BinaryOp) {digits : List Char} (hne : digits ≠ [])
    (hdigits : ∀ c ∈ digits, c.isDigit = true) :
    ∃ r : Float,
      evaluate (run (start mode) actions).mode (Display.number v) = .value r ∧
        (run (run (start mode) actions) (.operator op :: digits.map .digit)).result =
          Outcome.ofFloat
            (if op = .sub then -typedNumber digits else op.apply r (typedNumber digits)) := by
  have hholds := holds_run mode actions hexpression hresult hzero
  exact ⟨_, hholds.evaluate_reread _, hholds.result_operator op hne hdigits⟩

/-- A negative result is the whole left factor. -/
theorem result_operator_run_negative :
    (run (run (start .degrees) [.digit '3', .negate, .equals])
        (.operator .mul :: [.digit '1', .digit '2'])).result = .value (-36.0) := by
  have hshown : (run (start .degrees) [.digit '3', .negate, .equals]).result = .value (-3.0) := by
    decide +kernel
  have hdigits : ∀ c ∈ ['1', '2'], c.isDigit = true := List.all_eq_true.mp (by decide)
  obtain ⟨r, hr, hresult⟩ := result_operator_run .degrees [.digit '3', .negate, .equals]
    (by decide +kernel) hshown (by decide +kernel) .mul (List.cons_ne_nil _ _) hdigits
  have hread : evaluate .degrees (Display.number (-3.0)) = .value (-3.0) := by decide +kernel
  obtain rfl : -3.0 = r := Outcome.value.inj (hread.symm.trans hr)
  refine hresult.trans ?_
  decide +kernel

/-- Behind the result six the keys for minus two show minus two, not four. -/
theorem result_operator_run_minus :
    (run (start .degrees) [.digit '6', .equals]).expression = [] ∧
      (run (start .degrees) [.digit '6', .equals]).result = .value 6.0 ∧
      evaluate .degrees (Display.number 6.0) = .value 6.0 ∧
      (run (run (start .degrees) [.digit '6', .equals]) [.operator .sub, .digit '2']).result ≠
        Outcome.ofFloat (BinaryOp.apply .sub 6.0 (typedNumber ['2'])) := by
  decide +kernel

/-- Behind every run that leaves a result and nothing typed, the square key gives the
square of the result as it is read back.  The factorial key gives its factorial only
where it is not negative: the sign of a negative one goes before the factorial of its
magnitude, and a negative whole number, which has no factorial, is given one. -/
theorem result_function_run (mode : AngleMode) (actions : List Action) {v : Float}
    (hexpression : (run (start mode) actions).expression = [])
    (hresult : (run (start mode) actions).result = .value v) (hzero : (v == 0.0) = false) :
    ∃ r : Float,
      evaluate (run (start mode) actions).mode (Display.number v) = .value r ∧
        ((run (start mode) actions).step (.function .square)).result =
          Outcome.ofFloat (BinaryOp.power r 2.0) ∧
        ((run (start mode) actions).step (.function .factorial)).result =
          Outcome.ofFloat (if v < 0.0 then -factorial (-r) else factorial r) ∧
        (v < 0.0 → Double.isWhole r = true →
          Outcome.ofFloat (factorial r) = .notANumber ∧
            ((run (start mode) actions).step (.function .factorial)).result ≠ .notANumber) := by
  have hholds := holds_run mode actions hexpression hresult hzero
  refine ⟨Display.reread v, hholds.evaluate_reread _, hholds.result_square,
    hholds.result_factorial, fun hv hwhole => ?_⟩
  have hnegative := hholds.reread_lt_zero hv
  refine ⟨Outcome.ofFloat_eq_notANumber_iff.mpr
    (isNaN_factorial_of_negative hwhole hnegative), ?_⟩
  rw [hholds.result_factorial, if_pos hv, ne_eq, Outcome.ofFloat_eq_notANumber_iff,
    isNaN_neg_factorial hwhole hnegative]
  exact Bool.false_ne_true

/-- The opposite of the factorial of three, where minus three has none. -/
theorem result_function_run_negative :
    (-3.0 : Float) < 0.0 ∧ Double.isWhole (-3.0) = true ∧
      ((run (start .degrees) [.digit '3', .negate, .equals]).step
        (.function .factorial)).result = .value (-6.0) := by
  have hshown : (run (start .degrees) [.digit '3', .negate, .equals]).result = .value (-3.0) := by
    decide +kernel
  obtain ⟨r, hr, -, hfactorial, -⟩ := result_function_run .degrees
    [.digit '3', .negate, .equals] (by decide +kernel) hshown (by decide +kernel)
  have hread : evaluate .degrees (Display.number (-3.0)) = .value (-3.0) := by decide +kernel
  obtain rfl : -3.0 = r := Outcome.value.inj (hread.symm.trans hr)
  refine ⟨by decide +kernel, by decide +kernel, hfactorial.trans ?_⟩
  decide +kernel

/-- Behind the result minus three the factorial key shows minus six, not an error. -/
theorem result_factorial_ne_of_negative :
    (run (start .degrees) [.digit '3', .negate, .equals]).expression = [] ∧
      (run (start .degrees) [.digit '3', .negate, .equals]).result = .value (-3.0) ∧
      evaluate .degrees (Display.number (-3.0)) = .value (-3.0) ∧
      ((run (start .degrees) [.digit '3', .negate, .equals]).step
        (.function .factorial)).result ≠ Outcome.ofFloat (factorial (-3.0)) := by
  decide +kernel

end Scientific

end GraphCalc
