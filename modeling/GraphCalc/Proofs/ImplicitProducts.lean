/-
The products that are not written.  They are put exactly into the gaps between a value
and the next one, whether some of them stand there already or not; what is left for
the pass to refuse is a number behind a number.
-/
import GraphCalc.Proofs.LeftmostFault
import GraphCalc.Proofs.TextComposition
namespace GraphCalc

namespace Token

/-- The neighbours that are a product without a sign between them: a number, a constant,
the variable, a closing parenthesis or a factorial sign, and then a number, a constant,
the variable, an opening parenthesis, a function or a root sign, but not two numbers. -/
def juxtaposed : Token → Token → Bool
  | number _, number _ => false
  | number _, right | pi, right | euler, right | var, right | rightParen, right
  | bang, right =>
      match right with
      | number _ | pi | euler | var | leftParen | function _ | root => true
      | _ => false
  | _, _ => false

theorem multiplies_eq_juxtaposed (left right : Token) :
    left.multiplies right = juxtaposed left right := by
  cases left <;> cases right <;> rfl

/-- A product is not written behind the token at this position. -/
def isGap (tokens : List Token) (position : ℕ) : Bool :=
  match tokens[position]?, tokens[position + 1]? with
  | some left, some right => juxtaposed left right
  | _, _ => false

/-- The row with a star written behind the token at every chosen position. -/
def withStars (chosen : ℕ → Bool) (tokens : List Token) : List Token :=
  (tokens.mapIdx (fun position token =>
    token :: if chosen position then [times] else [])).flatten

theorem withStars_cons (chosen : ℕ → Bool) (token : Token) (rest : List Token) :
    withStars chosen (token :: rest) =
      token :: ((if chosen 0 then [times] else []) ++
        withStars (fun position => chosen (position + 1)) rest) := by
  rw [withStars, List.mapIdx_cons, List.flatten_cons, List.cons_append]
  rfl

/-! ### The gaps are filled -/

theorem withProducts_eq_withStars (tokens : List Token) :
    withProducts tokens = withStars (isGap tokens) tokens := by
  induction tokens with
  | nil => rfl
  | cons left tokens ih =>
      cases tokens with
      | nil => rfl
      | cons right rest =>
          rw [withProducts_cons_cons, ih, withStars_cons _ left, multiplies_eq_juxtaposed]
          rfl

/-- A star in a gap does not count as a value, on either side. -/
theorem withProducts_star (left : Token) (rest : List Token) :
    withProducts (left :: times :: rest) = left :: times :: withProducts rest := by
  rw [withProducts_cons_cons, (multiplies_times left).1, withProducts_cons rfl]
  rfl

/-- Stars that are written into gaps change nothing. -/
theorem withProducts_withStars {chosen : ℕ → Bool} {tokens : List Token}
    (h : ∀ position, chosen position = true → isGap tokens position = true) :
    withProducts (withStars chosen tokens) = withProducts tokens := by
  induction tokens generalizing chosen with
  | nil => rfl
  | cons left tokens ih =>
      have hrest := ih (fun position hchosen => h (position + 1) hchosen)
      rw [withStars_cons]
      cases tokens with
      | nil =>
          have hlast : chosen 0 = false := by
            apply Bool.eq_false_iff.mpr
            intro hchosen
            exact Bool.false_ne_true (h 0 hchosen)
          rw [hlast]
          rfl
      | cons right rest =>
          by_cases hchosen : chosen 0 = true
          · have hgap : left.multiplies right = true := by
              rw [multiplies_eq_juxtaposed]
              exact h 0 hchosen
            rw [if_pos hchosen, List.singleton_append, withProducts_star, hrest,
              withProducts_cons_cons, hgap]
            rfl
          · rw [if_neg hchosen, List.nil_append]
            rw [withStars_cons] at hrest ⊢
            rw [withProducts_cons_cons left, withProducts_cons_cons left, hrest]

/-- Neighbours in a row with its products: one of them is a star, or they were
neighbours before and no gap is between them. -/
theorem pair_withProducts {left right : Token} {tokens : List Token}
    (h : [left, right] <:+: withProducts tokens) :
    left = times ∨ right = times ∨
      ([left, right] <:+: tokens ∧ left.multiplies right = false) := by
  induction tokens with
  | nil => simp [withProducts] at h
  | cons first tokens ih =>
      cases tokens with
      | nil =>
          have hlength := h.length_le
          simp [withProducts] at hlength
      | cons second rest =>
          have hlater : [left, right] <:+: withProducts (second :: rest) →
              left = times ∨ right = times ∨
                ([left, right] <:+: first :: second :: rest ∧ left.multiplies right = false) := by
            intro hrest
            rcases ih hrest with hleft | hright | ⟨hpair, hgap⟩
            · exact Or.inl hleft
            · exact Or.inr (Or.inl hright)
            · exact Or.inr (Or.inr ⟨List.infix_cons hpair, hgap⟩)
          rw [withProducts_cons_cons] at h
          cases hgap : first.multiplies second with
          | true =>
              rw [hgap, if_pos rfl, List.singleton_append] at h
              rcases List.infix_cons_iff.mp h with hfront | hbehind
              · obtain ⟨rfl, hnext⟩ := List.cons_prefix_cons.mp hfront
                exact Or.inr (Or.inl (List.singleton_prefix_cons_iff.mp hnext))
              · rcases List.infix_cons_iff.mp hbehind with hstar | hrest
                · exact Or.inl (List.cons_prefix_cons.mp hstar).1
                · exact hlater hrest
          | false =>
              rw [hgap, if_neg Bool.false_ne_true, List.nil_append] at h
              rcases List.infix_cons_iff.mp h with hfront | hrest
              · obtain ⟨rfl, hnext⟩ := List.cons_prefix_cons.mp hfront
                rw [List.singleton_prefix_iff_head?_eq_some, head?_withProducts] at hnext
                obtain rfl : second = right := Option.some.inj hnext
                refine Or.inr (Or.inr ⟨?_, hgap⟩)
                exact (List.prefix_append [left, second] rest).isInfix
              · exact hlater hrest

theorem exists_of_isNumber {token : Token} (h : token.isNumber = true) :
    ∃ v : Float, token = number v := by
  cases token with
  | number v => exact ⟨v, rfl⟩
  | _ => contradiction

/-- Neighbours without a gap between them stay neighbours. -/
theorem pair_withProducts_of_pair {left right : Token} {tokens : List Token}
    (h : [left, right] <:+: tokens) (hgap : left.multiplies right = false) :
    [left, right] <:+: withProducts tokens := by
  obtain ⟨front, rest, rfl⟩ := h
  have hsplit := withProducts_append front left right rest
  rw [hgap, if_neg Bool.false_ne_true, List.nil_append] at hsplit
  have hlast : (withProducts (front ++ [left])).getLast? = some left := by
    rw [getLast?_withProducts, List.getLast?_concat]
  have hhead : (withProducts (right :: rest)).head? = some right :=
    head?_withProducts (right :: rest)
  obtain ⟨before, hbefore⟩ := List.getLast?_eq_some_iff.mp hlast
  obtain ⟨behind, hbehind⟩ := List.head?_eq_some_iff.mp hhead
  refine ⟨before, behind, ?_⟩
  rw [hbefore, hbehind] at hsplit
  simpa using hsplit.symm

end Token

open Token

/-! ### What the pass refuses -/

namespace Postfix

/-- Only a value behind a value is refused as an invalid expression. -/
theorem Pass.complete_of_step {pass : Pass} {token : Token}
    (h : pass.step token = .error .invalidExpression) :
    pass.phase = .complete ∧ token.beginsValue = true := by
  obtain ⟨phase, output, waiting, groups⟩ := pass
  cases phase with
  | operand => cases token <;> cases h
  | argument f =>
      by_cases hparen : token = .leftParen
      · subst hparen
        cases h
      · simp [Pass.step, hparen] at h
  | complete =>
      cases token with
      | rightParen => cases groups <;> cases h
      | number _ | pi | euler | var | function _ | root | leftParen => exact ⟨rfl, rfl⟩
      | plus | minus | times | divide | power | bang => cases h

theorem finish_ne_invalidExpression (pass : Pass) :
    pass.finish ≠ .error .invalidExpression := by
  obtain ⟨phase, output, waiting, groups⟩ := pass
  intro h
  cases phase with
  | operand => cases h
  | argument f => cases h
  | complete => cases groups <;> cases h

/-- A value ends where an operand is complete. -/
theorem exists_last_of_complete {pass : Pass} {read : List Token}
    (h : Grammar.Behind pass read) (hcomplete : pass.phase = .complete) :
    ∃ (front : List Token) (last : Token), read = front ++ [last] ∧ last.endsValue = true := by
  have hawaits := h.awaitsOperand_eq
  rw [hcomplete] at hawaits
  rcases List.eq_nil_or_concat read with rfl | ⟨front, last, rfl⟩
  · contradiction
  · rw [List.concat_eq_append] at hawaits ⊢
    exact ⟨front, last, rfl, by simpa [Grammar.awaitsOperand] using hawaits⟩

/-- In a row that is refused as an invalid expression one value stands right behind
another. -/
theorem exists_pair_of_invalidExpression {tokens : List Token}
    (h : ofTokens tokens = .error .invalidExpression) :
    ∃ left right : Token, [left, right] <:+: tokens ∧ left.endsValue = true ∧
      right.beginsValue = true := by
  rw [ofTokens] at h
  split at h
  · cases h
  · split at h
    · next pass hrun => exact absurd h (finish_ne_invalidExpression pass)
    · next e hrun =>
      obtain rfl := Except.error.inj h
      obtain ⟨read, right, rest, pass, rfl, hread, hstep⟩ := Grammar.exists_step_of_run hrun
      obtain ⟨hcomplete, hright⟩ := Pass.complete_of_step hstep
      obtain ⟨front, left, rfl, hleft⟩ :=
        exists_last_of_complete (Grammar.behind_start.run hread) hcomplete
      refine ⟨left, right, ⟨front, rest, ?_⟩, hleft, hright⟩
      simp

/-- A number right behind a number is never read. -/
theorem exists_error_of_numbers {tokens : List Token} {v w : Float}
    (h : [number v, number w] <:+: tokens) : ∃ e : SyntaxError, ofTokens tokens = .error e := by
  cases hread : ofTokens tokens with
  | error e => exact ⟨e, rfl⟩
  | ok items =>
      obtain ⟨front, rest, rfl⟩ := h
      obtain ⟨last, -, hlast, -⟩ := Grammar.accepts_of_ofTokens hread
      obtain ⟨next, hnext⟩ := Grammar.exists_run_of_append hlast
      have hsplit : front ++ [number v, number w] = (front ++ [number v]) ++ [number w] := by simp
      rw [hsplit] at hnext
      obtain ⟨pass, hpass⟩ := Grammar.exists_run_of_append hnext
      have hphase := (Grammar.behind_start.run hpass).phase
      rw [List.nil_append, List.getLast?_concat] at hphase
      obtain ⟨phase, output, waiting, groups⟩ := pass
      obtain rfl : phase = .complete := hphase
      rw [Pass.run_append, hpass] at hnext
      cases hnext

end Postfix

/-- The row with its products is the row with a star in every gap.  Writing some of
these stars before changes nothing, so nothing is left to fill.  A row with its products
is refused as an invalid expression only where a number stands right behind a number,
and there it is always refused. -/
theorem withProducts_fills_gaps (tokens : List Token) :
    withProducts tokens = withStars (isGap tokens) tokens ∧
      (∀ chosen : ℕ → Bool,
        (∀ position, chosen position = true → isGap tokens position = true) →
          withProducts (withStars chosen tokens) = withProducts tokens) ∧
      withProducts (withProducts tokens) = withProducts tokens ∧
      (Postfix.ofTokens (withProducts tokens) = .error .invalidExpression →
        ∃ v w : Float, [number v, number w] <:+: tokens) ∧
      ∀ v w : Float, [number v, number w] <:+: tokens →
        ∃ e : SyntaxError, Postfix.ofTokens (withProducts tokens) = .error e := by
  have hfilled := withProducts_eq_withStars tokens
  refine ⟨hfilled, fun _ hchosen => withProducts_withStars hchosen, ?_, ?_, ?_⟩
  · conv_lhs => rw [hfilled]
    exact withProducts_withStars (fun _ hgap => hgap)
  · intro hrefused
    obtain ⟨left, right, hpair, hleft, hright⟩ :=
      Postfix.exists_pair_of_invalidExpression hrefused
    rcases pair_withProducts hpair with rfl | rfl | ⟨hbefore, hgap⟩
    · contradiction
    · contradiction
    · -- the only values without a gap between them are numbers
      have hnumbers : left.isNumber = true ∧ right.isNumber = true := by
        simpa [multiplies, hleft, hright] using hgap
      obtain ⟨v, rfl⟩ := exists_of_isNumber hnumbers.1
      obtain ⟨w, rfl⟩ := exists_of_isNumber hnumbers.2
      exact ⟨v, w, hbefore⟩
  · intro v w hnumbers
    exact Postfix.exists_error_of_numbers (pair_withProducts_of_pair hnumbers rfl)

/-- Of the three gaps of a row one is filled by hand; two numbers stay as they are and
are refused. -/
theorem withProducts_fills_gaps_numbers :
    let tokens : List Token :=
      [number 2, var, leftParen, number 3, rightParen, number 4, number 5]
    let chosen : ℕ → Bool := fun position => position == 1
    (∀ position, chosen position = true → isGap tokens position = true) ∧
      withProducts (withStars chosen tokens) = withProducts tokens ∧
      withProducts tokens = [number 2, times, var, times, leftParen, number 3, rightParen, times,
        number 4, number 5] ∧
      Postfix.ofTokens (withProducts tokens) = .error .invalidExpression ∧
      ∃ v w : Float, [number v, number w] <:+: tokens := by
  intro tokens chosen
  have hchosen : ∀ position, chosen position = true → isGap tokens position = true := by
    intro position hposition
    obtain rfl : position = 1 := by simpa [chosen] using hposition
    rfl
  have hrefused : Postfix.ofTokens (withProducts tokens) = .error .invalidExpression := rfl
  obtain ⟨-, hstars, -, hnumbers, -⟩ := withProducts_fills_gaps tokens
  exact ⟨hchosen, hstars chosen hchosen, rfl, hrefused, hnumbers hrefused⟩

end GraphCalc
