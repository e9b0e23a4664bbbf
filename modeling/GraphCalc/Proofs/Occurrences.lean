/-
What an expression depends on.  Its value depends on the variable only where the variable
occurs in it, and on the angle mode only where a trigonometric call does.  A text whose
tokens have the variable is not evaluated, so the number that stands in for the variable
never reaches a result.
-/
import GraphCalc.Proofs.TextFaults
namespace GraphCalc

namespace Expr

/-! ### Occurrences -/

/-- An expression is a part of another one. -/
inductive Occurs (part : Expr) : Expr → Prop where
  | whole : Occurs part part
  | neg {operand : Expr} : Occurs part operand → Occurs part (.neg operand)
  | factorial {operand : Expr} : Occurs part operand → Occurs part (.factorial operand)
  | call (f : Function) {argument : Expr} :
      Occurs part argument → Occurs part (.call f argument)
  | left (op : BinaryOp) {left right : Expr} :
      Occurs part left → Occurs part (.binary op left right)
  | right (op : BinaryOp) {left right : Expr} :
      Occurs part right → Occurs part (.binary op left right)

theorem mentionsVar_of_occurs {part e : Expr} (h : Occurs part e)
    (hpart : part.mentionsVar = true) : e.mentionsVar = true := by
  induction h with
  | whole => exact hpart
  | neg _ ih | factorial _ ih | call _ _ ih => exact ih
  | left _ _ ih | right _ _ ih => simp [mentionsVar, ih]

theorem mentionsVar_iff (e : Expr) : e.mentionsVar = true ↔ Occurs .var e := by
  refine ⟨fun h => ?_, fun h => mentionsVar_of_occurs h rfl⟩
  induction e with
  | number value => contradiction
  | var => exact .whole
  | neg operand ih => exact .neg (ih h)
  | factorial operand ih => exact .factorial (ih h)
  | call f argument ih => exact .call f (ih h)
  | binary op left right ihleft ihright =>
      rcases Bool.or_eq_true_iff.mp h with hleft | hright
      · exact .left op (ihleft hleft)
      · exact .right op (ihright hright)

/-! ### A search without recursion into the tree -/

def nodes : Expr → ℕ
  | number _ | var => 1
  | neg operand | factorial operand | call _ operand => operand.nodes + 1
  | binary _ left right => left.nodes + right.nodes + 1

/-- Looks for the variable in the expressions of a stack, the top one first, and stops where
it is found. -/
def findsVar : List Expr → Bool
  | [] => false
  | var :: _ => true
  | number _ :: stack => findsVar stack
  | neg operand :: stack | factorial operand :: stack | call _ operand :: stack =>
      findsVar (operand :: stack)
  | binary _ left right :: stack => findsVar (right :: left :: stack)
termination_by stack => (stack.map nodes).sum
decreasing_by all_goals simp [nodes]; try omega

/-- The search finds the variable in one of the expressions. -/
theorem findsVar_eq (stack : List Expr) : findsVar stack = stack.any mentionsVar := by
  fun_induction findsVar stack with
  | case1 => rfl
  | case2 stack => rfl
  | case3 value stack ih => exact ih
  | case4 operand stack ih => exact ih
  | case5 operand stack ih => exact ih
  | case6 f operand stack ih => exact ih
  | case7 op left right stack ih =>
      rw [ih]
      simp [mentionsVar, Bool.or_comm, Bool.or_assoc]

/-! ### What a value depends on -/

/-- Where the variable does not occur, its value does not matter. -/
theorem eval_congr {e : Expr} (h : ¬ Occurs .var e) (mode : AngleMode) (x y : Float) :
    e.eval mode x = e.eval mode y := by
  induction e with
  | number value => rfl
  | var => exact absurd .whole h
  | neg operand ih => rw [eval, eval, ih fun hin => h (.neg hin)]
  | factorial operand ih => rw [eval, eval, ih fun hin => h (.factorial hin)]
  | call f argument ih => rw [eval, eval, ih fun hin => h (.call f hin)]
  | binary op left right ihleft ihright =>
      rw [eval, eval, ihleft fun hin => h (.left op hin), ihright fun hin => h (.right op hin)]

/-- Where no trigonometric call occurs, the angle mode does not matter. -/
theorem eval_mode {e : Expr}
    (h : ∀ (f : Function) (argument : Expr), Occurs (.call f argument) e →
      f.isTrigonometric = false) (left right : AngleMode) (x : Float) :
    e.eval left x = e.eval right x := by
  induction e with
  | number value => rfl
  | var => rfl
  | neg operand ih => rw [eval, eval, ih fun f argument hin => h f argument (.neg hin)]
  | factorial operand ih =>
      rw [eval, eval, ih fun f argument hin => h f argument (.factorial hin)]
  | call f argument ih =>
      rw [eval, eval, ih fun g other hin => h g other (.call f hin),
        Function.apply_mode (h f argument .whole) left right]
  | binary op first last ihfirst ihlast =>
      rw [eval, eval, ihfirst fun f argument hin => h f argument (.left op hin),
        ihlast fun f argument hin => h f argument (.right op hin)]

end Expr

/-! ### Texts with the variable -/

/-- The variable is no fault of a text. -/
theorem compile_ne_variableWithoutValue (text : List Char) :
    compile text ≠ .error .variableWithoutValue := by
  intro h
  rcases compile_error_cases h with hempty | hwritten | ⟨tokens, -, hitems⟩ | hdeep
  · contradiction
  · exact absurd (Token.isLexical_of_scan hwritten) Bool.noConfusion
  · by_cases hne : Token.withProducts tokens = []
    · rw [hne] at hitems
      contradiction
    · exact absurd (isStructural_of_ofTokens hne hitems) Bool.noConfusion
  · contradiction

/-- A text is refused for its variable exactly when it is compiled and its tokens have the
variable. -/
theorem evaluate_eq_variableWithoutValue_iff (mode : AngleMode) (text : List Char) :
    evaluate mode text = .malformed .variableWithoutValue ↔
      (∃ e : Expr, compile text = .ok e) ∧
        ∃ tokens : List Token, Token.tokenize text = .ok tokens ∧ Token.var ∈ tokens := by
  rw [evaluate]
  cases hcompile : compile text with
  | error fault =>
      refine iff_of_false (fun heq => ?_) (by simp)
      rw [Outcome.malformed.inj heq] at hcompile
      exact compile_ne_variableWithoutValue text hcompile
  | ok e =>
      obtain ⟨tokens, htokens, hvar⟩ := var_mem_iff_of_compile hcompile
      have hmem : (∃ others : List Token, Token.tokenize text = .ok others ∧ Token.var ∈ others) ↔
          e.mentionsVar = true := by
        rw [htokens, ← hvar]
        simp
      rw [hmem]
      by_cases hmentions : e.mentionsVar = true
      · simp [hmentions]
      · simp [hmentions, Outcome.ofFloat_ne_malformed]

/-- The value of a text that is not refused is the one of its expression wherever the
variable stands. -/
theorem evaluate_eq_ofFloat {mode : AngleMode} {text : List Char} {e : Expr}
    (h : compile text = .ok e) (haccepted : evaluate mode text ≠ .malformed .variableWithoutValue)
    (x : Float) : evaluate mode text = Outcome.ofFloat (e.eval mode x) := by
  simp only [evaluate, h] at haccepted ⊢
  by_cases hmentions : e.mentionsVar = true
  · rw [if_pos hmentions] at haccepted
    contradiction
  · rw [if_neg hmentions, Expr.eval_congr (mt (Expr.mentionsVar_iff e).mpr hmentions) mode 0.0 x]

/-- Evaluation depends on what occurs in a tree and on nothing else.  Both searches for the
variable find it exactly where it occurs.  Where it does not, its value does not matter,
and where no trigonometric call occurs, the angle mode does not.  A text is refused for its
variable exactly when it is compiled and its tokens have the variable, and otherwise its
value is that of its expression at every number. -/
theorem evaluate_depends_on_occurrences :
    (∀ e : Expr,
      (Expr.findsVar [e] = e.mentionsVar ∧ (e.mentionsVar = true ↔ Expr.Occurs .var e)) ∧
        (¬ Expr.Occurs .var e → ∀ (mode : AngleMode) (x y : Float),
          e.eval mode x = e.eval mode y) ∧
        ((∀ (f : Function) (argument : Expr), Expr.Occurs (.call f argument) e →
            f.isTrigonometric = false) →
          ∀ x : Float, e.eval .radians x = e.eval .degrees x)) ∧
      ∀ (mode : AngleMode) (text : List Char),
        (evaluate mode text = .malformed .variableWithoutValue ↔
          (∃ e : Expr, compile text = .ok e) ∧
            ∃ tokens : List Token, Token.tokenize text = .ok tokens ∧ Token.var ∈ tokens) ∧
          ∀ e : Expr, compile text = .ok e →
            evaluate mode text ≠ .malformed .variableWithoutValue →
              ∀ x : Float, evaluate mode text = Outcome.ofFloat (e.eval mode x) := by
  constructor
  · intro e
    refine ⟨⟨?_, e.mentionsVar_iff⟩, Expr.eval_congr, fun h => Expr.eval_mode h _ _⟩
    rw [Expr.findsVar_eq, List.any_cons, List.any_nil, Bool.or_false]
  · intro mode text
    exact ⟨evaluate_eq_variableWithoutValue_iff mode text, fun _ => evaluate_eq_ofFloat⟩

/-- A sum without the variable and without a call. -/
theorem evaluate_depends_on_occurrences_sum :
    (∀ x : Float, evaluate .degrees ['2', '+', '3'] =
        Outcome.ofFloat ((Expr.binary .add (.number 2.0) (.number 3.0)).eval .degrees x)) ∧
      evaluate .degrees ['2', 'x'] = .malformed .variableWithoutValue := by
  constructor
  · refine (evaluate_depends_on_occurrences.2 .degrees ['2', '+', '3']).2
      (.binary .add (.number 2.0) (.number 3.0)) (by decide +kernel) ?_
    decide +kernel
  · refine (evaluate_depends_on_occurrences.2 .degrees ['2', 'x']).1.mpr ⟨?_, ?_⟩
    · exact ⟨.binary .mul (.number 2.0) .var, by decide +kernel⟩
    · exact ⟨[.number 2.0, .times, .var], by decide +kernel, by simp⟩

end GraphCalc
