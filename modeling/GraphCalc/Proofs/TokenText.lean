/-
The written form of a row of tokens.  Every token is read from its own text, and the
space behind it ends it whatever comes next; so a row is read back as it was written,
with its products.
-/
import GraphCalc.Proofs.ImplicitProducts
import GraphCalc.Proofs.UnitTokens
namespace GraphCalc.Token

open GraphCalc.Expr (Unsigned)

/-! ### One token -/

/-- A space ends every lexeme. -/
theorem endsLexeme_space (rest : List Char) : EndsLexeme (' ' :: rest) := by
  intro c hc
  obtain rfl : ' ' = c := by simpa using hc
  decide

theorem scan_space (found : List Token) (rest : List Char) :
    scan found 0 (' ' :: rest) = scan found 0 rest := by
  rw [scan, if_pos (by decide)]

/-- The text of a token is read as the token where no lexeme goes on behind it. -/
theorem scan_tokenText (found : List Token) {token : Token} {rest : List Char}
    (hnumber : ∀ value : Float, token = number value → Unsigned value)
    (hrest : EndsLexeme rest) :
    scan found 0 (token.text ++ rest) = scan (token :: found) 0 rest := by
  cases token with
  | number value => exact Expr.scan_literal found (hnumber value rfl) hrest
  | function f => exact scan_function found f hrest
  | var => exact scan_var found hrest
  | euler =>
      apply Scientific.scan_euler
      intro c hc halpha
      rw [(hrest c hc).2] at halpha
      contradiction
  | pi | root | plus | minus | times | divide | power | bang | leftParen | rightParen =>
      exact scan_symbol found rest rfl

/-! ### Rows of tokens -/

theorem textOf_singleton (token : Token) : textOf [token] = token.text :=
  List.append_nil _

theorem textOf_cons_cons (left right : Token) (rest : List Token) :
    textOf (left :: right :: rest) = left.text ++ ' ' :: textOf (right :: rest) := by
  simp [textOf, List.intercalate]

/-- The row of tokens is read from its text, after whatever was found before. -/
theorem scan_textOf (found : List Token) {tokens : List Token}
    (h : ∀ value : Float, number value ∈ tokens → Unsigned value) :
    scan found 0 (textOf tokens) = .ok (found.reverse ++ tokens) := by
  induction tokens generalizing found with
  | nil => simp [textOf, scan]
  | cons left tokens ih =>
      have hleft : ∀ value : Float, left = number value → Unsigned value := by
        intro value hvalue
        exact h value (hvalue ▸ List.mem_cons_self)
      have htokens : ∀ value : Float, number value ∈ tokens → Unsigned value := by
        intro value hvalue
        exact h value (List.mem_cons_of_mem left hvalue)
      cases tokens with
      | nil =>
          have hscan := scan_tokenText found hleft endsLexeme_nil
          rw [List.append_nil] at hscan
          rw [textOf_singleton, hscan, scan, List.reverse_cons]
      | cons right rest =>
          rw [textOf_cons_cons, scan_tokenText found hleft (endsLexeme_space _), scan_space,
            ih (left :: found) htokens, List.reverse_cons, List.append_assoc,
            List.singleton_append]

/-! ### Numbers that were read -/

/-- A number that is read has no sign. -/
theorem negative_of_first {c : Char} {rest : List Char} {value : Float} {more : ℕ}
    (h : first c rest = .ok (number value, more)) : Double.negative value = false := by
  simp only [first] at h
  split at h
  · next token hsymbol =>
      cases h
      unfold ofSymbol? at hsymbol
      split at hsymbol <;> cases hsymbol
  · split at h
    · split at h
      · next d hread =>
          cases h
          exact Double.negative_ofPattern false (Decimal.pattern_le_top d)
      · contradiction
    · split at h
      · split at h
        · next word hword =>
            have hmem : word ∈ words := List.mem_of_find?_eq_some hword
            obtain ⟨htoken, -⟩ := Prod.mk.inj (Except.ok.inj h)
            have hno : ∀ word ∈ words, word.2.isNumber = false := by decide
            have hnumber := hno word hmem
            rw [htoken] at hnumber
            contradiction
        · contradiction
      · contradiction

/-- None of the numbers of a text has a sign. -/
theorem negative_of_scan {found : List Token} {skipped : ℕ} {text : List Char}
    {tokens : List Token} (h : scan found skipped text = .ok tokens)
    (hfound : ∀ value : Float, number value ∈ found → Double.negative value = false) :
    ∀ value : Float, number value ∈ tokens → Double.negative value = false := by
  induction text generalizing found skipped with
  | nil =>
      rw [scan] at h
      cases h
      intro value hvalue
      exact hfound value (List.mem_reverse.mp hvalue)
  | cons c rest ih =>
      cases skipped with
      | succ skipped => exact ih h hfound
      | zero =>
          rw [scan] at h
          split at h
          · exact ih h hfound
          · split at h
            · next token more hfirst =>
                apply ih h
                intro value hvalue
                rcases List.mem_cons.mp hvalue with hnumber | hmem
                · exact negative_of_first (hnumber ▸ hfirst)
                · exact hfound value hmem
            · contradiction

theorem mem_withProducts {token : Token} (hne : token ≠ times) {tokens : List Token} :
    token ∈ withProducts tokens ↔ token ∈ tokens := by
  rw [← List.count_pos_iff, count_withProducts hne, List.count_pos_iff]

/-- A row with its products has no product left to write. -/
theorem withProducts_withProducts (tokens : List Token) :
    withProducts (withProducts tokens) = withProducts tokens := by
  conv_lhs => rw [withProducts_eq_withStars tokens]
  exact withProducts_withStars (fun _ hgap => hgap)

/-- The text of a row of tokens whose numbers are finite and unsigned is read as that
row with its products.  A row that was itself read from a text has them already and
its numbers are unsigned, so its text is read as the row, if no number is infinite. -/
theorem tokenize_textOf (tokens : List Token) :
    ((∀ value : Float, number value ∈ tokens → Unsigned value) →
        tokenize (textOf tokens) = .ok (withProducts tokens)) ∧
      ∀ text : List Char, tokenize text = .ok tokens →
        (∀ value : Float, number value ∈ tokens → value.isFinite = true) →
          tokenize (textOf tokens) = .ok tokens := by
  have hwritten : (∀ value : Float, number value ∈ tokens → Unsigned value) →
      tokenize (textOf tokens) = .ok (withProducts tokens) := by
    intro h
    rw [tokenize, written, scan_textOf [] h]
    rfl
  refine ⟨hwritten, ?_⟩
  intro text hread hfinite
  rw [tokenize] at hread
  cases hscan : written text with
  | error e =>
      rw [hscan] at hread
      contradiction
  | ok raw =>
      rw [hscan] at hread
      obtain rfl : withProducts raw = tokens := Except.ok.inj hread
      have hunsigned : ∀ value : Float, number value ∈ withProducts raw → Unsigned value := by
        intro value hvalue
        have hmem : number value ∈ raw := (mem_withProducts Token.noConfusion).mp hvalue
        exact ⟨hfinite value hvalue, negative_of_scan hscan (fun _ hnone => by cases hnone)
          value hmem⟩
      rw [hwritten hunsigned, withProducts_withProducts]

/-- An e between two numbers, before a name that begins with it, and before x, where the
written form must not run them together. -/
theorem tokenize_textOf_euler :
    let tokens : List Token :=
      [number 2.5, euler, number 3, euler, var, times, function .exp, leftParen, pi, rightParen]
    (∀ value : Float, number value ∈ tokens → Unsigned value) ∧
      tokenize (textOf tokens) = .ok (withProducts tokens) ∧
      tokenize "2.5 e 3exp(x)".toList =
        .ok [number 2.5, times, euler, times, number 3, times, function .exp, leftParen, var,
          rightParen] ∧
      tokenize (textOf [number 2.5, times, euler, times, number 3, times, function .exp, leftParen,
        var, rightParen]) =
          .ok [number 2.5, times, euler, times, number 3, times, function .exp, leftParen, var,
            rightParen] := by
  intro tokens
  have hunsigned : ∀ value : Float, number value ∈ tokens → Unsigned value := by
    intro value hvalue
    have hcases : value = 2.5 ∨ value = 3 := by simpa [tokens] using hvalue
    rcases hcases with rfl | rfl
    · exact ⟨by decide +kernel, by decide +kernel⟩
    · exact ⟨by decide +kernel, by decide +kernel⟩
  have hread : tokenize "2.5 e 3exp(x)".toList =
      .ok [number 2.5, times, euler, times, number 3, times, function .exp, leftParen, var,
        rightParen] := by decide +kernel
  refine ⟨hunsigned, (tokenize_textOf tokens).1 hunsigned, hread, ?_⟩
  refine (tokenize_textOf _).2 _ hread ?_
  intro value hvalue
  have hcases : value = 2.5 ∨ value = 3 := by simpa using hvalue
  rcases hcases with rfl | rfl
  · decide +kernel
  · decide +kernel

end GraphCalc.Token
