/-
The fault of a row of tokens.  Whatever the pass has read can be completed to a
sentence, and it stops at the first token that no sentence has there; so its error is
told by the longest viable front of the row and by the token behind it.
-/
import GraphCalc.Proofs.Parsing
namespace GraphCalc.Grammar

open GraphCalc.Postfix

/-! ### Viable fronts and their faults -/

/-- Some continuation of the row is a sentence. -/
def Viable (tokens : List Token) : Prop :=
  ∃ (rest : List Token) (tree : Tree), Sentence (tokens ++ rest) tree

/-- The longest front of a row that some continuation completes. -/
structure LongestViable (front tokens : List Token) : Prop where
  isFront : front <+: tokens
  viable : Viable front
  longest : ∀ other : List Token, other <+: tokens → Viable other → other <+: front

/-- The function whose parenthesis is due behind the row. -/
def callDue? (read : List Token) : Option Function :=
  match read.getLast? with
  | some (.function f) => some f
  | _ => none

/-- An operand is still awaited behind the row: no value ends there. -/
def awaitsOperand (read : List Token) : Bool :=
  read.getLast?.all (fun last => !last.endsValue)

/-- Every parenthesis of the row is closed. -/
def balanced (read : List Token) : Bool :=
  read.count .leftParen == read.count .rightParen

/-- The fault of a token that cannot stand behind a viable row.  Signs can stand
behind every one. -/
def offence? (read : List Token) : Token → Option SyntaxError
  | .number _ | .pi | .euler | .var | .function _ | .leftParen | .root =>
      some .invalidExpression
  | .bang | .times | .divide | .power => some .missingOperand
  | .rightParen =>
      if awaitsOperand read then some .missingOperand
      else if balanced read then some .unexpectedParenthesis
      else none
  | .plus | .minus => none

/-- The fault behind the longest viable front of a row, with the token behind it. -/
def fault? (read : List Token) (next : Option Token) : Option SyntaxError :=
  match callDue? read, next with
  | some f, _ => some (.functionWithoutParenthesis f)
  | none, some token => offence? read token
  | none, none => some (if awaitsOperand read then .missingOperand else .unclosedParenthesis)

/-! ### What is read can be completed -/

theorem Accepts.cons {pass next : Pass} {token : Token} {rest : List Token}
    (hstep : pass.step token = .ok next) (h : Accepts next rest) :
    Accepts pass (token :: rest) := by
  obtain ⟨last, items, hrun, hfinish⟩ := h
  refine ⟨last, items, ?_, hfinish⟩
  rw [Pass.run, hstep]
  exact hrun

/-- Behind a complete operand the open parenthesis are closed one by one. -/
theorem accepts_closing (output : List Item) (waiting : List Operator)
    (groups : List Postfix.Group) :
    Accepts ⟨.complete, output, waiting, groups⟩
      (List.replicate groups.length .rightParen) := by
  induction groups generalizing output waiting with
  | nil => exact ⟨_, _, rfl, rfl⟩
  | cons group groups ih =>
      rw [List.length_cons, List.replicate_succ]
      exact Accepts.cons rfl (ih _ group.outside)

theorem accepts_operand (output : List Item) (waiting : List Operator)
    (groups : List Postfix.Group) :
    Accepts ⟨.operand, output, waiting, groups⟩
      (.var :: List.replicate groups.length .rightParen) :=
  Accepts.cons rfl (accepts_closing _ waiting groups)

/-- From every state some row leads to the end. -/
theorem exists_accepts (pass : Pass) : ∃ rest : List Token, Accepts pass rest := by
  obtain ⟨phase, output, waiting, groups⟩ := pass
  cases phase with
  | operand => exact ⟨_, accepts_operand output waiting groups⟩
  | argument f =>
      have hstep : Pass.step ⟨.argument f, output, waiting, groups⟩ .leftParen =
          .ok ⟨.operand, output, [], ⟨some f, waiting⟩ :: groups⟩ := rfl
      exact ⟨_, Accepts.cons hstep (accepts_operand output [] _)⟩
  | complete => exact ⟨_, accepts_closing output waiting groups⟩

/-- A row is read only if its fronts are. -/
theorem exists_run_of_append {pass last : Pass} {front rest : List Token}
    (h : pass.run (front ++ rest) = .ok last) :
    ∃ next : Pass, pass.run front = .ok next := by
  rw [Pass.run_append] at h
  cases hrun : pass.run front with
  | error e =>
      rw [hrun] at h
      contradiction
  | ok next => exact ⟨next, rfl⟩

/-- The pass reads exactly the viable rows. -/
theorem viable_iff_run {tokens : List Token} :
    Viable tokens ↔ ∃ pass : Pass, Pass.start.run tokens = .ok pass := by
  constructor
  · rintro ⟨rest, tree, hsentence⟩
    obtain ⟨last, -, hrun, -⟩ := accepts_of_ofTokens (ofTokens_sentence hsentence)
    exact exists_run_of_append hrun
  · rintro ⟨pass, hrun⟩
    obtain ⟨rest, last, items, hrest, hfinish⟩ := exists_accepts pass
    have haccepts : Accepts Pass.start (tokens ++ rest) := by
      refine ⟨last, items, ?_, hfinish⟩
      rw [Pass.run_append, hrun]
      exact hrest
    obtain ⟨tree, htree⟩ := exists_sentence haccepts
    exact ⟨rest, tree, htree⟩

/-! ### The state of the pass behind a row -/

/-- What may come behind a token. -/
def phaseBehind : Token → Phase
  | .function f => .argument f
  | token => if token.endsValue then .complete else .operand

/-- The state of the pass behind the tokens that it has read. -/
structure Behind (pass : Pass) (read : List Token) : Prop where
  phase : pass.phase = (read.getLast?.map phaseBehind).getD .operand
  groups : pass.groups.length + read.count .rightParen = read.count .leftParen

theorem behind_start : Behind Pass.start [] :=
  ⟨rfl, rfl⟩

/-- A step tells what may come next by its token alone, and it opens and closes the
parentheses that it reads. -/
theorem behind_of_step {pass next : Pass} {token : Token} (h : pass.step token = .ok next) :
    next.phase = phaseBehind token ∧
      next.groups.length + [token].count .rightParen =
        pass.groups.length + [token].count .leftParen := by
  obtain ⟨phase, output, waiting, groups⟩ := pass
  cases phase with
  | operand => cases token <;> cases h <;> exact ⟨rfl, rfl⟩
  | argument f =>
      by_cases hparen : token = .leftParen
      · subst hparen
        cases h
        exact ⟨rfl, rfl⟩
      · simp [Pass.step, hparen] at h
  | complete =>
      cases token with
      | rightParen =>
          cases groups with
          | nil => cases h
          | cons group groups =>
              cases h
              exact ⟨rfl, rfl⟩
      | _ => cases h <;> exact ⟨rfl, rfl⟩

theorem Behind.step {pass next : Pass} {read : List Token} {token : Token}
    (h : Behind pass read) (hstep : pass.step token = .ok next) :
    Behind next (read ++ [token]) := by
  obtain ⟨hphase, hgroups⟩ := behind_of_step hstep
  constructor
  · rw [hphase, List.getLast?_concat]
    rfl
  · rw [List.count_append, List.count_append, ← h.groups]
    omega

theorem Behind.run {pass last : Pass} {read tokens : List Token} (h : Behind pass read)
    (hrun : pass.run tokens = .ok last) : Behind last (read ++ tokens) := by
  induction tokens generalizing pass read with
  | nil =>
      obtain rfl : pass = last := Except.ok.inj hrun
      rwa [List.append_nil]
  | cons token rest ih =>
      rw [Pass.run] at hrun
      cases hstep : pass.step token with
      | error e =>
          rw [hstep] at hrun
          contradiction
      | ok next =>
          rw [hstep] at hrun
          have hlast := ih (h.step hstep) hrun
          rwa [List.append_assoc] at hlast

/-! ### The error of the pass -/

section Fault
variable {pass : Pass} {read : List Token} (h : Behind pass read)
include h

theorem Behind.callDue?_eq : callDue? read =
    match pass.phase with
    | .argument f => some f
    | _ => none := by
  rw [h.phase, callDue?]
  cases read.getLast? with
  | none => rfl
  | some last => cases last <;> rfl

theorem Behind.awaitsOperand_eq : awaitsOperand read = decide (pass.phase ≠ .complete) := by
  rw [h.phase, awaitsOperand]
  cases read.getLast? with
  | none => rfl
  | some last => cases last <;> rfl

/-- The error of a step is the fault of its token. -/
theorem Behind.fault?_of_step {token : Token} {e : SyntaxError}
    (hstep : pass.step token = .error e) : fault? read (some token) = some e := by
  have hcall := h.callDue?_eq
  have hawaits := h.awaitsOperand_eq
  have hgroups := h.groups
  obtain ⟨phase, output, waiting, groups⟩ := pass
  cases phase with
  | operand =>
      simp only [fault?, hcall]
      cases token with
      | rightParen =>
          cases hstep
          exact if_pos hawaits
      | _ => cases hstep <;> rfl
  | argument f =>
      simp only [fault?, hcall]
      by_cases hparen : token = .leftParen
      · subst hparen
        cases hstep
      · simp only [Pass.step, hparen, if_false] at hstep
        cases hstep
        rfl
  | complete =>
      simp only [fault?, hcall]
      cases token with
      | rightParen =>
          cases groups with
          | nil =>
              cases hstep
              have hbalanced : balanced read = true := by
                simpa [balanced] using hgroups.symm
              simp [offence?, hawaits, hbalanced]
          | cons group groups => cases hstep
      | _ => cases hstep <;> rfl

/-- The error at the end is the fault of a row that ends too early. -/
theorem Behind.fault?_of_finish {e : SyntaxError} (hfinish : pass.finish = .error e) :
    fault? read none = some e := by
  have hcall := h.callDue?_eq
  have hawaits := h.awaitsOperand_eq
  obtain ⟨phase, output, waiting, groups⟩ := pass
  cases phase with
  | operand =>
      cases hfinish
      simp [fault?, hcall, hawaits]
  | argument f =>
      cases hfinish
      simp only [fault?, hcall]
  | complete =>
      cases groups with
      | nil => cases hfinish
      | cons group groups =>
          cases hfinish
          simp [fault?, hcall, hawaits]

end Fault

/-- An error comes from one token, behind a row that is read. -/
theorem exists_step_of_run {pass : Pass} {tokens : List Token} {e : SyntaxError}
    (h : pass.run tokens = .error e) :
    ∃ (front : List Token) (token : Token) (rest : List Token) (next : Pass),
      front ++ token :: rest = tokens ∧ pass.run front = .ok next ∧
        next.step token = .error e := by
  induction tokens generalizing pass with
  | nil => contradiction
  | cons token rest ih =>
      rw [Pass.run] at h
      cases hstep : pass.step token with
      | error fault =>
          rw [hstep] at h
          exact ⟨[], token, rest, pass, rfl, rfl, hstep.trans h⟩
      | ok middle =>
          rw [hstep] at h
          obtain ⟨front, last, after, next, rfl, hrun, hlast⟩ := ih h
          refine ⟨token :: front, last, after, next, rfl, ?_, hlast⟩
          rw [Pass.run, hstep]
          exact hrun

/-- A row that is read is its own longest viable front. -/
theorem longestViable_self {tokens : List Token} (h : Viable tokens) :
    LongestViable tokens tokens :=
  ⟨List.prefix_rfl, h, fun _ hother _ => hother⟩

/-- No viable front goes beyond a token that the pass refuses. -/
theorem longestViable_of_step {front rest : List Token} {token : Token} {pass : Pass}
    {e : SyntaxError} (hrun : Pass.start.run front = .ok pass)
    (hstep : pass.step token = .error e) : LongestViable front (front ++ token :: rest) where
  isFront := List.prefix_append front (token :: rest)
  viable := viable_iff_run.mpr ⟨pass, hrun⟩
  longest := by
    intro other hother hviable
    rcases Nat.lt_or_ge front.length other.length with hlonger | hshorter
    · have hbeyond : front ++ [token] <+: other := by
        apply List.prefix_of_prefix_length_le _ hother
        · rw [List.length_append, List.length_singleton]
          exact hlonger
        · exact ⟨rest, by simp⟩
      obtain ⟨after, rfl⟩ := hbeyond
      obtain ⟨last, hlast⟩ := viable_iff_run.mp hviable
      obtain ⟨next, hnext⟩ := exists_run_of_append hlast
      rw [Pass.run_append, hrun] at hnext
      simp [Pass.run, hstep] at hnext
    · exact List.prefix_of_prefix_length_le hother
        (List.prefix_append front (token :: rest)) hshorter

/-- A row that is no sentence is refused with the fault behind its longest viable
front: that of the token there, or that of a row which ends too early. -/
theorem ofTokens_leftmost_fault {tokens : List Token} (hnonempty : tokens ≠ [])
    (hsentence : ∀ tree : Tree, ¬ Sentence tokens tree) :
    ofTokens [] = .error .emptyInput ∧
      ∃ (front rest : List Token) (e : SyntaxError), front ++ rest = tokens ∧
        LongestViable front tokens ∧ fault? front rest.head? = some e ∧
          ofTokens tokens = .error e := by
  refine ⟨rfl, ?_⟩
  have hread : ofTokens tokens = (Pass.start.run tokens).bind Pass.finish := by
    have hempty : tokens.isEmpty = false := by simpa using hnonempty
    rw [ofTokens, hempty]
    cases Pass.start.run tokens with
    | ok pass => rfl
    | error e => rfl
  cases hrun : Pass.start.run tokens with
  | ok pass =>
      rw [hrun] at hread
      cases hfinish : pass.finish with
      | ok items =>
          obtain ⟨tree, htree, -⟩ := ofTokens_eq_ok_iff.mp (hread.trans hfinish)
          exact absurd htree (hsentence tree)
      | error e =>
          have hbehind := behind_start.run hrun
          exact ⟨tokens, [], e, List.append_nil tokens,
            longestViable_self (viable_iff_run.mpr ⟨pass, hrun⟩),
            hbehind.fault?_of_finish hfinish, hread.trans hfinish⟩
  | error e =>
      rw [hrun] at hread
      obtain ⟨front, token, rest, pass, rfl, hfront, hstep⟩ := exists_step_of_run hrun
      have hbehind := behind_start.run hfront
      exact ⟨front, token :: rest, e, rfl, longestViable_of_step hfront hstep,
        hbehind.fault?_of_step hstep, hread⟩

/-- A parenthesis that closes nothing is refused there, whatever follows it. -/
theorem ofTokens_leftmost_fault_closing :
    let tokens : List Token :=
      [.leftParen, .minus, .number 5, .bang, .rightParen, .rightParen, .times]
    tokens ≠ [] ∧ (∀ tree : Tree, ¬ Sentence tokens tree) ∧
      ∃ front rest : List Token, front ++ rest = tokens ∧ LongestViable front tokens ∧
        fault? front rest.head? = some .unexpectedParenthesis ∧
          ofTokens tokens = .error .unexpectedParenthesis := by
  intro tokens
  have hread : ofTokens tokens = .error .unexpectedParenthesis := rfl
  have hsentence : ∀ tree : Tree, ¬ Sentence tokens tree := by
    intro tree htree
    rw [ofTokens_sentence htree] at hread
    contradiction
  refine ⟨List.cons_ne_nil _ _, hsentence, ?_⟩
  obtain ⟨-, front, rest, e, hsplit, hlongest, hfault, herror⟩ :=
    ofTokens_leftmost_fault (List.cons_ne_nil _ _) hsentence
  obtain rfl : e = .unexpectedParenthesis := Except.error.inj (herror.symm.trans hread)
  exact ⟨front, rest, hsplit, hlongest, hfault, hread⟩

end GraphCalc.Grammar
