/-
The end of a text.  A sign or a blank at the end leaves the tokens before it as
they are.  So an expression has no value while its text ends with an operator or
with an opening parenthesis, and none while a parenthesis is open.
-/
import GraphCalc.Compile
import GraphCalc.Proofs.Lexemes
import GraphCalc.Proofs.TreeBuilding
namespace GraphCalc

namespace Token

/-! ### A character that is no digit and no letter -/

theorem takeWhile_append_cons {p : Char → Bool} {c : Char} {text rest : List Char}
    (h : p c = false ∨ ∃ other ∈ text, p other = false) :
    (text ++ c :: rest).takeWhile p = text.takeWhile p := by
  induction text with
  | nil =>
      have hc : p c = false := by simpa using h
      simp [hc]
  | cons head more ih =>
      rw [List.cons_append, List.takeWhile_cons, List.takeWhile_cons]
      cases hhead : p head with
      | false => rfl
      | true =>
          have hmore : p c = false ∨ ∃ other ∈ more, p other = false := by
            simpa [hhead] using h
          rw [ih hmore]

/-- The character ends the lexeme before it: it is no digit and no letter, and if it
is a sign then no exponent goes on behind it. -/
structure EndsBefore (c : Char) (rest : List Char) : Prop where
  isDigit : c.isDigit = false
  isAlpha : c.isAlpha = false
  sign : isSign c = false ∨ ∀ d ∈ rest.head?, d.isDigit = false

theorem endsBefore_nil {c : Char} (hdigit : c.isDigit = false) (halpha : c.isAlpha = false) :
    EndsBefore c [] :=
  ⟨hdigit, halpha, Or.inr (by simp)⟩

section Seam
variable {c : Char} {rest : List Char} (hends : EndsBefore c rest)
include hends

/-- Behind a mark the character begins no exponent. -/
theorem takeWhile_isDigit_of_endsBefore :
    ((c :: rest).drop (((c :: rest).take 1).takeWhile isSign).length).takeWhile Char.isDigit =
      [] := by
  cases hsign : isSign c with
  | false => simp [hsign, hends.isDigit]
  | true =>
      have hrest : ∀ d ∈ rest.head?, d.isDigit = false := by
        simpa [hsign] using hends.sign
      cases rest with
      | nil => simp [hsign]
      | cons head more => simp [hsign, hrest head rfl]

theorem exponentLexeme_append (text : List Char) :
    exponentLexeme (text ++ c :: rest) = exponentLexeme text := by
  rcases text with _ | ⟨mark, _ | ⟨head, more⟩⟩
  · exact exponentLexeme_of_not_isAlpha hends.isAlpha rest
  · have hdigits := takeWhile_isDigit_of_endsBefore hends
    simp only [List.cons_append, List.nil_append, exponentLexeme, hdigits]
    simp
  · have hsign : ([head].takeWhile isSign).length ≤ (head :: more).length := by
      refine Nat.le_trans (List.takeWhile_prefix isSign).length_le ?_
      simp
    have hdigits : ((head :: more ++ c :: rest).drop ([head].takeWhile isSign).length).takeWhile
        Char.isDigit =
          ((head :: more).drop ([head].takeWhile isSign).length).takeWhile Char.isDigit := by
      rw [List.drop_append_of_le_length hsign, takeWhile_append_cons (Or.inl hends.isDigit)]
    simp only [List.cons_append] at hdigits
    simp only [exponentLexeme, List.cons_append, List.take_succ_cons, List.take_zero, hdigits]
    rfl

theorem numberLexeme_append {text : List Char}
    (h : inMantissa c = false ∨ ∃ other ∈ text, inMantissa other = false) :
    numberLexeme (text ++ c :: rest) = numberLexeme text := by
  have hlength : (text.takeWhile inMantissa).length ≤ text.length :=
    (List.takeWhile_prefix inMantissa).length_le
  simp only [numberLexeme]
  rw [takeWhile_append_cons h, List.drop_append_of_le_length hlength,
    exponentLexeme_append hends]

/-- The token at the beginning of a text does not depend on what such a character
begins, unless both are in one number. -/
theorem first_append {head : Char} {more : List Char}
    (h : inMantissa c = false ∨ ∃ other ∈ head :: more, inMantissa other = false) :
    first head (more ++ c :: rest) = first head more := by
  have hnumber := numberLexeme_append hends h
  have hletters : (head :: more ++ c :: rest).takeWhile Char.isAlpha =
      (head :: more).takeWhile Char.isAlpha := takeWhile_append_cons (Or.inl hends.isAlpha)
  rw [List.cons_append] at hnumber hletters
  simp only [first, letterRun, hnumber, hletters]

end Seam

/-! ### A lexeme is no longer than its text -/

theorem exponentLexeme_begins (text : List Char) : exponentLexeme text <+: text := by
  cases text with
  | nil => exact List.prefix_rfl
  | cons mark rest =>
      have hsign : (rest.take 1).takeWhile isSign <+: rest :=
        (List.takeWhile_prefix isSign).trans (List.take_prefix 1 rest)
      have hdigits : (rest.take 1).takeWhile isSign ++
          (rest.drop ((rest.take 1).takeWhile isSign).length).takeWhile Char.isDigit <+: rest := by
        conv_rhs => rw [← List.prefix_iff_eq_append.mp hsign]
        exact (List.prefix_append_right_inj _).mpr (List.takeWhile_prefix Char.isDigit)
      simp only [exponentLexeme]
      split
      · split
        · exact List.nil_prefix
        · exact (List.prefix_cons_inj mark).mpr hdigits
      · exact List.nil_prefix

/-- A number stands at the beginning of its text. -/
theorem numberLexeme_begins (text : List Char) : numberLexeme text <+: text := by
  have hmantissa : text.takeWhile inMantissa <+: text := List.takeWhile_prefix inMantissa
  conv_rhs => rw [← List.prefix_iff_eq_append.mp hmantissa]
  exact (List.prefix_append_right_inj _).mpr (exponentLexeme_begins _)

theorem length_word {letters : List Char} {word : List Char × Token}
    (h : ofLetters? letters = some word) : word.1.length ≤ letters.length := by
  have hbegins := List.find?_some h
  rw [beginsWith, Bool.and_eq_true] at hbegins
  exact (List.isPrefixOf_iff_prefix.mp hbegins.1).length_le

theorem length_letterRun (text : List Char) : (letterRun text).length ≤ text.length := by
  rw [letterRun, lowerCase, List.length_map]
  exact (List.takeWhile_prefix Char.isAlpha).length_le

/-- The characters of a token are characters of the text. -/
theorem more_le_of_first {c : Char} {rest : List Char} {token : Token} {more : Nat}
    (h : first c rest = .ok (token, more)) : more ≤ rest.length := by
  simp only [first] at h
  split at h
  · cases h
    exact Nat.zero_le _
  · split at h
    · split at h
      · cases h
        have hlexeme := (numberLexeme_begins (c :: rest)).length_le
        rw [List.length_cons] at hlexeme
        rw [List.length_map]
        omega
      · contradiction
    · split at h
      · split at h
        · next word hword =>
            cases h
            have hlength := Nat.le_trans (length_word hword) (length_letterRun _)
            rw [List.length_cons] at hlength
            omega
        · contradiction
      · contradiction

/-! ### The tokens of a longer text -/

/-- A character that is no part of a number or a word is read after everything
before it. -/
theorem scan_append {c : Char} {rest : List Char} (hmantissa : inMantissa c = false)
    (hends : EndsBefore c rest) (found : List Token) {skipped : Nat} {text : List Char}
    (h : skipped ≤ text.length) :
    scan found skipped (text ++ c :: rest) =
      (scan found skipped text).bind (fun tokens => scan tokens.reverse 0 (c :: rest)) := by
  induction text generalizing found skipped with
  | nil =>
      obtain rfl : skipped = 0 := Nat.le_zero.mp h
      simp [scan, Except.bind]
  | cons head more ih =>
      cases skipped with
      | succ skipped => exact ih found (Nat.le_of_succ_le_succ h)
      | zero =>
          rw [List.cons_append, scan, scan]
          by_cases hblank : Text.isBlank head = true
          · rw [if_pos hblank, if_pos hblank]
            exact ih found (Nat.zero_le _)
          · rw [if_neg hblank, if_neg hblank, first_append hends (Or.inl hmantissa)]
            cases hfirst : first head more with
            | error e => rfl
            | ok next => exact ih (next.1 :: found) (more_le_of_first hfirst)

/-- A last character that is no part of a number or a word. -/
theorem written_concat {c : Char} (hmantissa : inMantissa c = false) (halpha : c.isAlpha = false)
    (text : List Char) :
    written (text ++ [c]) = (written text).bind (fun tokens => scan tokens.reverse 0 [c]) :=
  scan_append hmantissa (endsBefore_nil (isDigit_of_not_inMantissa hmantissa) halpha) []
    (Nat.zero_le _)

theorem written_concat_symbol {c : Char} {token : Token} (h : ofSymbol? c = some token)
    (text : List Char) :
    written (text ++ [c]) = (written text).map (fun tokens => tokens ++ [token]) := by
  obtain ⟨hmantissa, halpha, -⟩ := of_ofSymbol? h
  rw [written_concat hmantissa halpha]
  cases written text with
  | error e => rfl
  | ok tokens =>
      change scan tokens.reverse 0 [c] = .ok (tokens ++ [token])
      rw [scan_symbol _ _ h, scan, List.reverse_cons, List.reverse_reverse]

theorem written_concat_blank {c : Char} (h : Text.isBlank c = true) (text : List Char) :
    written (text ++ [c]) = written text := by
  have hmantissa : inMantissa c = false := by
    cases hin : inMantissa c with
    | false => rfl
    | true =>
        rw [isBlank_of_inMantissa hin] at h
        contradiction
  have halpha : c.isAlpha = false := by
    cases hin : c.isAlpha with
    | false => rfl
    | true =>
        rw [isBlank_of_isAlpha hin] at h
        contradiction
  rw [written_concat hmantissa halpha]
  cases written text with
  | error e => rfl
  | ok tokens =>
      change scan tokens.reverse 0 [c] = .ok tokens
      rw [scan, if_pos h, scan, List.reverse_reverse]

theorem written_dropWhile (text : List Char) :
    written (text.dropWhile Text.isBlank) = written text := by
  induction text with
  | nil => rfl
  | cons c rest ih =>
      by_cases hblank : Text.isBlank c = true
      · rw [List.dropWhile_cons_of_pos hblank, ih, written, written, scan, if_pos hblank]
      · rw [List.dropWhile_cons_of_neg hblank]

theorem written_dropEnd (text : List Char) :
    written (text.reverse.dropWhile Text.isBlank).reverse = written text := by
  induction text using List.reverseRecOn with
  | nil => rfl
  | append_singleton text c ih =>
      rw [List.reverse_append, List.reverse_singleton, List.singleton_append]
      by_cases hblank : Text.isBlank c = true
      · rw [List.dropWhile_cons_of_pos hblank, ih, written_concat_blank hblank]
      · rw [List.dropWhile_cons_of_neg hblank, List.reverse_cons, List.reverse_reverse]

/-- Trimming a text takes no token away. -/
theorem written_trim (text : List Char) : written (Text.trim text) = written text := by
  rw [Text.trim, written_dropEnd, written_dropWhile]

/-! ### A point at the end -/

/-- The number at the end of a text, if there is one, has no point. -/
def EndsWithoutPoint (text : List Char) : Prop :=
  ∀ digits : List Char, digits <:+ text → (∀ c ∈ digits, inMantissa c = true) →
    ∀ c ∈ digits, c.isDigit = true

theorem EndsWithoutPoint.tail {c : Char} {rest : List Char} (h : EndsWithoutPoint (c :: rest)) :
    EndsWithoutPoint rest :=
  fun digits hsuffix => h digits (hsuffix.trans (List.suffix_cons c rest))

theorem scan_point (found : List Token) :
    scan found 0 ['.'] = .error (.invalidNumber ['.']) :=
  rfl

/-- A point behind the digits of a number changes nothing. -/
theorem scan_digits_point (found : List Token) {digits : List Char} (hne : digits ≠ [])
    (h : ∀ c ∈ digits, c.isDigit = true) :
    scan found 0 (digits ++ ['.']) = scan found 0 digits := by
  have hmantissa : ∀ c ∈ digits ++ ['.'], inMantissa c = true := by
    intro c hc
    rcases List.mem_append.mp hc with hc | hc
    · exact inMantissa_of_isDigit (h c hc)
    · rw [List.mem_singleton.mp hc]
      decide
  have hpoint := Decimal.read?_point hne h (List.forall_mem_nil _) Decimal.endsDigits_nil
  rw [List.append_nil, List.append_nil, Decimal.readExponent?_nil] at hpoint
  have hscan := scan_mantissa found (by simp) hmantissa hpoint endsLexeme_nil
  rw [List.append_nil] at hscan
  rw [hscan, scan_digits found hne h]
  simp [scan]

/-- Where a point at the end belongs to a number, the tokens are those of the text
without it. -/
theorem scan_concat_point (found : List Token) {skipped : Nat} {text : List Char}
    {tokens : List Token} (hpoint : EndsWithoutPoint text) (hskipped : skipped ≤ text.length)
    (h : scan found skipped (text ++ ['.']) = .ok tokens) :
    scan found skipped text = .ok tokens := by
  induction text generalizing found skipped with
  | nil =>
      obtain rfl : skipped = 0 := Nat.le_zero.mp hskipped
      rw [List.nil_append, scan_point] at h
      contradiction
  | cons head rest ih =>
      cases skipped with
      | succ skipped => exact ih found hpoint.tail (Nat.le_of_succ_le_succ hskipped) h
      | zero =>
          by_cases hall : ∀ c ∈ head :: rest, inMantissa c = true
          · have hdigits := hpoint (head :: rest) (List.suffix_refl _) hall
            rwa [scan_digits_point found (List.cons_ne_nil _ _) hdigits] at h
          · simp only [not_forall, exists_prop, Bool.not_eq_true] at hall
            rw [List.cons_append, scan] at h
            rw [scan]
            by_cases hblank : Text.isBlank head = true
            · rw [if_pos hblank] at h ⊢
              exact ih found hpoint.tail (Nat.zero_le _) h
            · rw [if_neg hblank,
                first_append (endsBefore_nil (by decide) (by decide)) (Or.inr hall)] at h
              rw [if_neg hblank]
              cases hfirst : first head rest with
              | error e =>
                  rw [hfirst] at h
                  contradiction
              | ok next =>
                  rw [hfirst] at h
                  exact ih (next.1 :: found) hpoint.tail (more_le_of_first hfirst) h

end Token

/-! ### Compiled texts -/

open Token Grammar

/-- What a text is compiled to depends on its tokens, unless nothing is written. -/
theorem compile_eq (text : List Char) :
    compile text =
      if (Text.trim text).isEmpty then .error .emptyInput
      else (written text).bind (fun tokens =>
        (Postfix.ofTokens (withProducts tokens)).bind Postfix.toExpr) := by
  simp only [compile, tokenize, written_trim]
  split
  · rfl
  · cases written text <;> rfl

/-- The tokens of a text that is compiled are a sentence, and its expression is built
from the listing of that sentence. -/
theorem exists_tokens_of_compile {text : List Char} {e : Expr} (h : compile text = .ok e) :
    ∃ (tokens : List Token) (tree : Tree),
      written text = .ok tokens ∧ Sentence (withProducts tokens) tree ∧
        Postfix.toExpr tree.listing = .ok e := by
  rw [compile_eq] at h
  split at h
  · contradiction
  cases hwritten : written text with
  | error error =>
      rw [hwritten] at h
      contradiction
  | ok tokens =>
      rw [hwritten] at h
      change (Postfix.ofTokens (withProducts tokens)).bind Postfix.toExpr = .ok e at h
      cases hitems : Postfix.ofTokens (withProducts tokens) with
      | error error =>
          rw [hitems] at h
          contradiction
      | ok items =>
          rw [hitems] at h
          obtain ⟨tree, hsentence, rfl⟩ := ofTokens_eq_ok_iff.mp hitems
          exact ⟨tokens, tree, rfl, hsentence, h⟩

/-- The faults of a text: nothing is written, a lexeme or the order of the tokens is
at fault, or the tree is too high. -/
theorem compile_error_cases {text : List Char} {error : SyntaxError}
    (h : compile text = .error error) :
    error = .emptyInput ∨ written text = .error error ∨
      (∃ tokens : List Token, written text = .ok tokens ∧
        Postfix.ofTokens (withProducts tokens) = .error error) ∨
      error = .tooDeep Postfix.heightLimit := by
  rw [compile_eq] at h
  split at h
  · exact Or.inl (Except.error.inj h).symm
  cases hwritten : written text with
  | error fault =>
      rw [hwritten] at h
      obtain rfl : fault = error := Except.error.inj h
      exact Or.inr (Or.inl rfl)
  | ok tokens =>
      rw [hwritten] at h
      change (Postfix.ofTokens (withProducts tokens)).bind Postfix.toExpr = .error error at h
      cases hitems : Postfix.ofTokens (withProducts tokens) with
      | error fault =>
          rw [hitems] at h
          obtain rfl : fault = error := Except.error.inj h
          exact Or.inr (Or.inr (Or.inl ⟨tokens, rfl, hitems⟩))
      | ok items =>
          rw [hitems] at h
          obtain ⟨tree, -, rfl⟩ := ofTokens_eq_ok_iff.mp hitems
          change Postfix.toExpr tree.listing = .error error at h
          rw [toExpr_listing] at h
          split at h
          · contradiction
          · exact Or.inr (Or.inr (Or.inr (Except.error.inj h).symm))

/-! ### Texts with a value -/

/-- What is known of a text that has a value: its tokens are a sentence, and its
value is the one of the expression that is compiled from them. -/
theorem exists_tokens_of_value {mode : AngleMode} {text : List Char} {v : Float}
    (h : evaluate mode text = .value v) :
    ∃ (tokens : List Token) (tree : Tree) (e : Expr),
      written text = .ok tokens ∧ Sentence (withProducts tokens) tree ∧
        Postfix.toExpr tree.listing = .ok e ∧ Outcome.ofFloat (e.eval mode 0.0) = .value v := by
  rw [evaluate] at h
  split at h
  · contradiction
  · next e he =>
      obtain ⟨tokens, tree, hwritten, hsentence, hexpr⟩ := exists_tokens_of_compile he
      split at h
      · contradiction
      · exact ⟨tokens, tree, e, hwritten, hsentence, hexpr, h⟩

/-- Two texts with the same tokens have the same value. -/
theorem value_congr {mode : AngleMode} {left right : List Char} {v w : Float}
    (h : ∀ tokens : List Token, written left = .ok tokens → written right = .ok tokens)
    (hleft : evaluate mode left = .value v) (hright : evaluate mode right = .value w) :
    v = w := by
  obtain ⟨tokens, tree, e, hwritten, hsentence, hexpr, hvalue⟩ := exists_tokens_of_value hleft
  obtain ⟨tokens', tree', e', hwritten', hsentence', hexpr', hvalue'⟩ :=
    exists_tokens_of_value hright
  obtain rfl : tokens = tokens' := Except.ok.inj ((h tokens hwritten).symm.trans hwritten')
  obtain rfl : tree = tree' := hsentence.unique hsentence'
  obtain rfl : e = e' := Except.ok.inj (hexpr.symm.trans hexpr')
  exact Outcome.value.inj (hvalue.symm.trans hvalue')

/-- The tokens of a text that ends with a sign and has a value. -/
theorem exists_tokens_of_value_concat {mode : AngleMode} {text : List Char} {c : Char}
    {token : Token} {v : Float} (hsymbol : ofSymbol? c = some token)
    (h : evaluate mode (text ++ [c]) = .value v) :
    ∃ (tokens : List Token) (tree : Tree),
      written text = .ok tokens ∧ Sentence (withProducts (tokens ++ [token])) tree := by
  obtain ⟨tokens, tree, -, hwritten, hsentence, -⟩ := exists_tokens_of_value h
  rw [written_concat_symbol hsymbol] at hwritten
  cases hbefore : written text with
  | error error =>
      rw [hbefore] at hwritten
      contradiction
  | ok before =>
      rw [hbefore] at hwritten
      obtain rfl : before ++ [token] = tokens := Except.ok.inj hwritten
      exact ⟨before, tree, rfl, hsentence⟩

/-- A text that ends with an operator or with an opening parenthesis has no
value. -/
theorem evaluate_concat_ne_value {c : Char} {token : Token}
    (hsymbol : ofSymbol? c = some token) (hends : token.endsValue = false)
    (mode : AngleMode) (text : List Char) (v : Float) :
    evaluate mode (text ++ [c]) ≠ .value v := by
  intro h
  obtain ⟨tokens, tree, -, hsentence⟩ := exists_tokens_of_value_concat hsymbol h
  obtain ⟨last, hlast, hvalue⟩ := Phrase.endsValue hsentence
  rw [getLast?_withProducts, List.getLast?_concat] at hlast
  obtain rfl : token = last := Option.some.inj hlast
  rw [hends] at hvalue
  contradiction

/-- Where a closing parenthesis completes a text, the text has no value without
it. -/
theorem evaluate_ne_value_of_close {mode : AngleMode} {text : List Char} {v : Float}
    (h : evaluate mode (text ++ [')']) = .value v) (w : Float) :
    evaluate mode text ≠ .value w := by
  intro hopen
  obtain ⟨tokens, tree, hwritten, hsentence⟩ := exists_tokens_of_value_concat rfl h
  obtain ⟨tokens', tree', -, hwritten', hsentence', -⟩ := exists_tokens_of_value hopen
  obtain rfl : tokens = tokens' := Except.ok.inj (hwritten.symm.trans hwritten')
  have hclosed := Phrase.count_parens hsentence
  have hbefore := Phrase.count_parens hsentence'
  rw [count_withProducts (by decide), count_withProducts (by decide)] at hclosed hbefore
  simp [hbefore] at hclosed

/-- A point that goes on with a number without a point keeps the value. -/
theorem value_concat_point {mode : AngleMode} {text : List Char} {v w : Float}
    (hpoint : EndsWithoutPoint text) (h : evaluate mode text = .value v)
    (h' : evaluate mode (text ++ ['.']) = .value w) : w = v :=
  value_congr (fun _ htokens => scan_concat_point [] hpoint (Nat.zero_le _) htokens) h' h

end GraphCalc
