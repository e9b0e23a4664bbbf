/-
The faults of a text of units.  Only a number, the order of the tokens and the
height of the tree can be at fault: every character and every word is known, a
parenthesis follows every function name, and the variable is in no such text.
-/
import GraphCalc.Proofs.TextEnds
import GraphCalc.Proofs.UnitTokens
namespace GraphCalc

/-- The faults of a text that no keys write: an unknown character or word, a function
name without parenthesis, and the variable. -/
def SyntaxError.isForeign : SyntaxError → Bool
  | .unexpectedCharacter _ | .unknownWord _ | .functionWithoutParenthesis _
  | .variableWithoutValue => true
  | _ => false

namespace Token

/-- A parenthesis follows every function name. -/
def OpensCalls : List Token → Prop
  | [] => True
  | token :: rest => (∀ f, token = .function f → rest.head? = some .leftParen) ∧ OpensCalls rest

theorem OpensCalls.withProducts {tokens : List Token} (h : OpensCalls tokens) :
    OpensCalls (withProducts tokens) := by
  induction tokens with
  | nil => trivial
  | cons left tokens ih =>
      obtain ⟨hleft, htokens⟩ := h
      cases tokens with
      | nil => exact ⟨hleft, trivial⟩
      | cons right rest =>
          have hrest := ih htokens
          rw [Token.withProducts]
          split
          · next hproduct =>
              refine ⟨fun f hf => ?_, fun f hf => Token.noConfusion hf, hrest⟩
              rw [hf] at hproduct
              exact absurd hproduct (by simp [multiplies, endsValue])
          · refine ⟨fun f hf => ?_, hrest⟩
            rw [head?_withProducts]
            exact hleft f hf

end Token

namespace Postfix.Pass

/-- Where the parenthesis of a call is due, it comes next. -/
def Meets (pass : Pass) (tokens : List Token) : Prop :=
  ∀ f : Function, pass.phase = .argument f → tokens.head? = some .leftParen

/-- A step goes on, or ends with a fault that is not foreign. -/
theorem step_meets {pass : Pass} {token : Token} {rest : List Token}
    (hcalls : Token.OpensCalls (token :: rest)) (hmeets : pass.Meets (token :: rest)) :
    (∃ next : Pass, pass.step token = .ok next ∧ next.Meets rest) ∨
      ∃ e : SyntaxError, pass.step token = .error e ∧ e.isForeign = false := by
  obtain ⟨phase, output, waiting, groups⟩ := pass
  cases phase with
  | operand =>
      cases token with
      | function f => exact Or.inl ⟨_, rfl, fun _ _ => hcalls.1 f rfl⟩
      | times | divide | power | bang | rightParen => exact Or.inr ⟨_, rfl, rfl⟩
      | _ => exact Or.inl ⟨_, rfl, fun _ h => Phase.noConfusion h⟩
  | argument f =>
      obtain rfl : token = .leftParen := Option.some.inj (hmeets f rfl)
      exact Or.inl ⟨_, rfl, fun _ h => Phase.noConfusion h⟩
  | complete =>
      cases token with
      | plus | minus | times | divide | power | bang =>
          exact Or.inl ⟨_, rfl, fun _ h => Phase.noConfusion h⟩
      | rightParen =>
          cases groups with
          | nil => exact Or.inr ⟨_, rfl, rfl⟩
          | cons group groups => exact Or.inl ⟨_, rfl, fun _ h => Phase.noConfusion h⟩
      | _ => exact Or.inr ⟨_, rfl, rfl⟩

theorem run_meets {tokens : List Token} (hcalls : Token.OpensCalls tokens) {pass : Pass}
    (hmeets : pass.Meets tokens) :
    (∃ last : Pass, pass.run tokens = .ok last ∧ last.Meets []) ∨
      ∃ e : SyntaxError, pass.run tokens = .error e ∧ e.isForeign = false := by
  induction tokens generalizing pass with
  | nil => exact Or.inl ⟨pass, rfl, hmeets⟩
  | cons token rest ih =>
      rw [run]
      rcases step_meets hcalls hmeets with ⟨next, hstep, hnext⟩ | ⟨e, hstep, hfault⟩
      · rw [hstep]
        exact ih hcalls.2 hnext
      · rw [hstep]
        exact Or.inr ⟨e, rfl, hfault⟩

theorem isForeign_of_finish {pass : Pass} (hmeets : pass.Meets []) {e : SyntaxError}
    (h : pass.finish = .error e) : e.isForeign = false := by
  rw [finish] at h
  split at h
  · exact Except.error.inj h ▸ rfl
  · next f hphase => exact absurd (hmeets f hphase) (by simp)
  · split at h
    · contradiction
    · exact Except.error.inj h ▸ rfl

end Postfix.Pass

/-- A row with a parenthesis behind every function name has no foreign fault. -/
theorem isForeign_of_ofTokens {tokens : List Token} (hcalls : Token.OpensCalls tokens)
    {e : SyntaxError} (h : Postfix.ofTokens tokens = .error e) : e.isForeign = false := by
  rw [Postfix.ofTokens] at h
  split at h
  · exact Except.error.inj h ▸ rfl
  · have hstart : Postfix.Pass.start.Meets tokens := fun _ h => Postfix.Phase.noConfusion h
    rcases Postfix.Pass.run_meets hcalls hstart with ⟨last, hrun, hlast⟩ | ⟨fault, hrun, hfault⟩
    · rw [hrun] at h
      exact Postfix.Pass.isForeign_of_finish hlast h
    · rw [hrun] at h
      exact Except.error.inj h ▸ hfault

/-- A number is no fault. -/
theorem Outcome.ofFloat_ne_malformed (v : Float) (e : SyntaxError) : ofFloat v ≠ .malformed e := by
  rw [ofFloat]
  split
  · exact Outcome.noConfusion
  · split <;> exact Outcome.noConfusion

/-! ### Where a fault comes from -/

/-- The faults of a lexeme. -/
def SyntaxError.isLexical : SyntaxError → Bool
  | .unexpectedCharacter _ | .invalidNumber _ | .unknownWord _ => true
  | _ => false

/-- The faults in the order of the tokens. -/
def SyntaxError.isStructural : SyntaxError → Bool
  | .functionWithoutParenthesis _ | .unclosedParenthesis | .unexpectedParenthesis
  | .missingOperand | .invalidExpression => true
  | _ => false

theorem Token.isLexical_of_first {c : Char} {rest : List Char} {e : SyntaxError}
    (h : first c rest = .error e) : e.isLexical = true := by
  simp only [first] at h
  split at h
  · contradiction
  split at h
  · split at h
    · contradiction
    · exact Except.error.inj h ▸ rfl
  split at h
  · split at h
    · contradiction
    · exact Except.error.inj h ▸ rfl
  · exact Except.error.inj h ▸ rfl

theorem Token.isLexical_of_scan {found : List Token} {skipped : ℕ} {text : List Char}
    {e : SyntaxError} (h : scan found skipped text = .error e) : e.isLexical = true := by
  induction text generalizing found skipped with
  | nil => cases skipped <;> contradiction
  | cons c rest ih =>
      cases skipped with
      | succ skipped => exact ih h
      | zero =>
          rw [scan] at h
          split at h
          · exact ih h
          · cases hfirst : first c rest with
            | ok next =>
                rw [hfirst] at h
                exact ih h
            | error fault =>
                rw [hfirst] at h
                exact Except.error.inj h ▸ isLexical_of_first hfirst

namespace Postfix.Pass

theorem isStructural_of_step {pass : Pass} {token : Token} {e : SyntaxError}
    (h : pass.step token = .error e) : e.isStructural = true := by
  obtain ⟨phase, output, waiting, groups⟩ := pass
  cases phase with
  | operand =>
      cases token with
      | times | divide | power | bang | rightParen => exact Except.error.inj h ▸ rfl
      | _ => contradiction
  | argument f =>
      simp only [step] at h
      split at h
      · contradiction
      · exact Except.error.inj h ▸ rfl
  | complete =>
      cases token with
      | plus | minus | times | divide | power | bang => contradiction
      | rightParen =>
          cases groups with
          | nil => exact Except.error.inj h ▸ rfl
          | cons group groups => contradiction
      | _ => exact Except.error.inj h ▸ rfl

theorem isStructural_of_run {pass : Pass} {tokens : List Token} {e : SyntaxError}
    (h : pass.run tokens = .error e) : e.isStructural = true := by
  induction tokens generalizing pass with
  | nil => contradiction
  | cons token rest ih =>
      rw [run] at h
      cases hstep : pass.step token with
      | ok next =>
          rw [hstep] at h
          exact ih h
      | error fault =>
          rw [hstep] at h
          exact Except.error.inj h ▸ isStructural_of_step hstep

theorem isStructural_of_finish {pass : Pass} {e : SyntaxError}
    (h : pass.finish = .error e) : e.isStructural = true := by
  rw [finish] at h
  split at h
  · exact Except.error.inj h ▸ rfl
  · exact Except.error.inj h ▸ rfl
  · split at h
    · contradiction
    · exact Except.error.inj h ▸ rfl

end Postfix.Pass

/-- A row of tokens is at fault in their order, unless there are none. -/
theorem isStructural_of_ofTokens {tokens : List Token} (hne : tokens ≠ []) {e : SyntaxError}
    (h : Postfix.ofTokens tokens = .error e) : e.isStructural = true := by
  rw [Postfix.ofTokens, if_neg (by simpa using hne)] at h
  cases hrun : Postfix.Pass.start.run tokens with
  | ok last =>
      rw [hrun] at h
      exact Postfix.Pass.isStructural_of_finish h
  | error fault =>
      rw [hrun] at h
      exact Except.error.inj h ▸ Postfix.Pass.isStructural_of_run hrun

/-- Parsing leaves no operand out: the variable is in the expression exactly where it is a
token of the phrase. -/
theorem Grammar.Phrase.var_mem_iff {level : Level} {tokens : List Token} {tree : Tree}
    (h : Phrase level tokens tree) : Token.var ∈ tokens ↔ tree.expr.mentionsVar = true := by
  induction h with
  | number _ | pi | euler | var => simp [Tree.expr, Expr.mentionsVar]
  | group _ ih | call _ _ ih | bang _ ih | neg _ ih | plus _ ih | root _ ih =>
      simp [Tree.expr, Expr.mentionsVar, ih]
  | power _ _ ihleft ihright => simp [Tree.expr, Expr.mentionsVar, ihleft, ihright]
  | @row level op left right first last hjoins _ _ ihleft ihright =>
      have hop : Token.var ≠ op.token := by cases op <;> decide
      simp [Tree.expr, Expr.mentionsVar, ihleft, ihright, hop]
  | ofTighter _ _ ih => exact ih

/-- The tokens of a text that is compiled, unwritten products included, have the variable
exactly where its expression has it. -/
theorem var_mem_iff_of_compile {text : List Char} {expr : Expr} (h : compile text = .ok expr) :
    ∃ tokens : List Token, Token.tokenize text = .ok tokens ∧
      (Token.var ∈ tokens ↔ expr.mentionsVar = true) := by
  obtain ⟨tokens, tree, hwritten, hsentence, htree⟩ := exists_tokens_of_compile h
  rw [Grammar.toExpr_listing] at htree
  split at htree
  · refine ⟨Token.withProducts tokens, by rw [Token.tokenize, hwritten]; rfl, ?_⟩
    rw [← Except.ok.inj htree]
    exact hsentence.var_mem_iff
  · contradiction

namespace Scientific

open Token Grammar

theorem Reading.opensCalls {text : List Char} {tokens : List Token} (h : Reading text tokens) :
    OpensCalls tokens := by
  induction h with
  | nil => trivial
  | symbol hsymbol _ ih => exact ⟨fun f hf => absurd hf ((ofSymbol?_ne hsymbol).2.2 f), ih⟩
  | call _ _ ih => exact ⟨fun _ _ => rfl, fun _ hf => Token.noConfusion hf, ih⟩
  | euler _ ih | number _ _ _ _ _ ih | power _ _ _ _ _ _ ih =>
      exact ⟨fun _ hf => Token.noConfusion hf, ih⟩

/-- A text of units has tokens that are read from it, or a number is at fault. -/
theorem Spelled.written_cases {text : List Char} (h : Spelled text) :
    (∃ tokens : List Token, written text = .ok tokens ∧ Reading text tokens) ∨
      ∃ lexeme : List Char, written text = .error (.invalidNumber lexeme) := by
  simpa [ReadsOn, written] using h.readsOn []

theorem Spelled.reading {text : List Char} (h : Spelled text) {tokens : List Token}
    (hwritten : written text = .ok tokens) : Reading text tokens := by
  rcases h.written_cases with ⟨others, hothers, hreading⟩ | ⟨lexeme, hfault⟩
  · exact Except.ok.inj (hothers.symm.trans hwritten) ▸ hreading
  · rw [hfault] at hwritten
    contradiction

theorem Spelled.isForeign_of_compile {text : List Char} (h : Spelled text) {e : SyntaxError}
    (hfault : compile text = .error e) : e.isForeign = false := by
  rcases compile_error_cases hfault with rfl | hwritten | ⟨tokens, hwritten, hitems⟩ | rfl
  · rfl
  · rcases h.written_cases with ⟨tokens, htokens, -⟩ | ⟨lexeme, hnumber⟩
    · rw [htokens] at hwritten
      contradiction
    · exact Except.error.inj (hnumber.symm.trans hwritten) ▸ rfl
  · exact isForeign_of_ofTokens (h.reading hwritten).opensCalls.withProducts hitems
  · rfl

theorem Spelled.mentionsVar_of_compile {text : List Char} (h : Spelled text) {expr : Expr}
    (hexpr : compile text = .ok expr) : expr.mentionsVar = false := by
  obtain ⟨tokens, tree, hwritten, -, -⟩ := exists_tokens_of_compile hexpr
  obtain ⟨filled, htokens, hvar⟩ := var_mem_iff_of_compile hexpr
  rw [tokenize, hwritten] at htokens
  obtain rfl : withProducts tokens = filled := Except.ok.inj htokens
  rw [Bool.eq_false_iff, ne_eq, ← hvar, ← List.count_pos_iff,
    count_withProducts Token.noConfusion, List.count_pos_iff]
  exact (h.reading hwritten).var_not_mem

/-- A text of units has no foreign fault. -/
theorem Spelled.isForeign_of_evaluate {text : List Char} (h : Spelled text) {mode : AngleMode}
    {e : SyntaxError} (hfault : evaluate mode text = .malformed e) : e.isForeign = false := by
  rw [evaluate] at hfault
  split at hfault
  · next error hcompile => exact Outcome.malformed.inj hfault ▸ h.isForeign_of_compile hcompile
  · next expr hexpr =>
      rw [h.mentionsVar_of_compile hexpr, if_neg Bool.false_ne_true] at hfault
      exact absurd hfault (Outcome.ofFloat_ne_malformed _ _)

end Scientific

end GraphCalc
