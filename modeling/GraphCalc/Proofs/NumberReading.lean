/-
Reading the notations of a result.  A text in any of them is read as one number,
and a sign before it makes that number negative.
-/
import GraphCalc.Proofs.NumberText
namespace GraphCalc.Display

open Layout (double)

/-! ### Texts of one number -/

/-- A text without blanks that is read as one number. -/
structure ReadsAs (text : List Char) (d : Decimal) : Prop where
  nonempty : text ≠ []
  solid : ∀ c ∈ text, Text.isBlank c = false
  scan : ∀ found : List Token,
    Token.scan found 0 text = .ok (Token.number (d.toDouble false) :: found).reverse

theorem scan_positional (found : List Token) (d : Decimal) {rest : List Char}
    (hrest : Token.EndsLexeme rest) :
    Token.scan found 0 (d.positional ++ rest) =
      Token.scan (.number (d.writtenOut.toDouble false) :: found) 0 rest :=
  Token.scan_mantissa found d.positional_ne_nil (fun _ => Token.inMantissa_of_mem_positional)
    (Decimal.read?_positional d) hrest

theorem readsAs_positional (d : Decimal) : ReadsAs d.positional d.writtenOut where
  nonempty := d.positional_ne_nil
  solid := fun _ hc => Token.isBlank_of_inMantissa (Token.inMantissa_of_mem_positional hc)
  scan := by
    intro found
    have hscan := scan_positional found d Token.endsLexeme_nil
    rwa [List.append_nil] at hscan

theorem positional_whole (n : ℕ) : (⟨n, 0⟩ : Decimal).positional = numeral n := by
  rw [Decimal.positional_of_nonneg (Int.le_refl 0), Int.toNat_zero, Nat.pow_zero, Nat.mul_one]

theorem writtenOut_whole (n : ℕ) : (⟨n, 0⟩ : Decimal).writtenOut = ⟨n, 0⟩ := by
  rw [Decimal.writtenOut, if_pos (Int.le_refl 0), Int.toNat_zero, Nat.pow_zero, Nat.mul_one]

theorem scan_numeral (found : List Token) (n : ℕ) {rest : List Char}
    (hrest : Token.EndsLexeme rest) :
    Token.scan found 0 (numeral n ++ rest) =
      Token.scan (.number (Decimal.toDouble false ⟨n, 0⟩) :: found) 0 rest := by
  rw [← positional_whole, scan_positional found _ hrest, writtenOut_whole]

theorem readsAs_numeral (n : ℕ) : ReadsAs (numeral n) ⟨n, 0⟩ := by
  have hreads := readsAs_positional ⟨n, 0⟩
  rwa [positional_whole, writtenOut_whole] at hreads

theorem isDigit_of_mem_powerText {power : ℤ} {c : Char} (h : c ∈ powerText power) :
    c = '-' ∨ c = '+' ∨ c.isDigit = true := by
  rw [powerText] at h
  rcases List.mem_cons.mp h with hsign | hdigit
  · split at hsign
    · exact Or.inl hsign
    · exact Or.inr (Or.inl hsign)
  · exact Or.inr (Or.inr (isDigit_of_mem_numeral hdigit))

theorem read?_powerText (power : ℤ) :
    Decimal.readExponent? ('e' :: powerText power) = some power := by
  have hdigits : ∀ c ∈ numeral power.natAbs, c.isDigit = true :=
    fun c => isDigit_of_mem_numeral
  rw [powerText]
  by_cases hnegative : power < 0
  · rw [if_pos hnegative, Decimal.readExponent?_negative (numeral_ne_nil _) hdigits,
      numeralValue_numeral]
    congr 1
    omega
  · rw [if_neg hnegative, Decimal.readExponent?_positive (numeral_ne_nil _) hdigits,
      numeralValue_numeral]
    congr 1
    omega

theorem inMantissa_of_mem_mantissaText {d : Decimal} {c : Char} (h : c ∈ mantissaText d) :
    Token.inMantissa c = true := by
  rw [Token.inMantissa, Bool.or_eq_true, decide_eq_true_eq]
  rw [mantissaText, List.mem_append, List.mem_cons] at h
  rcases h with hfirst | hpoint | hmore
  · exact Or.inl (isDigit_of_mem_numeral (List.mem_of_mem_take hfirst))
  · exact Or.inr hpoint
  · exact Or.inl (isDigit_of_mem_numeral (List.mem_of_mem_drop hmore))

/-- The exponent belongs to the number with its sign and all its digits. -/
theorem exponentLexeme_powerText (power : ℤ) {rest : List Char}
    (hrest : Token.EndsLexeme rest) :
    Token.exponentLexeme ('e' :: (powerText power ++ rest)) = 'e' :: powerText power := by
  have hends : ∀ c ∈ rest.head?, c.isDigit = false :=
    fun c hc => Token.isDigit_of_not_inMantissa (hrest c hc).1
  have hdigits : (numeral power.natAbs ++ rest).takeWhile Char.isDigit = numeral power.natAbs :=
    takeWhile_front (fun c => isDigit_of_mem_numeral) hends
  have hempty : (numeral power.natAbs).isEmpty = false := by
    simpa using numeral_ne_nil power.natAbs
  rw [powerText]
  by_cases hnegative : power < 0
  · simp [Token.exponentLexeme, Token.isSign, hnegative, hdigits, hempty]
  · simp [Token.exponentLexeme, Token.isSign, hnegative, hdigits, hempty]

theorem numberLexeme_poweredText (d : Decimal) {rest : List Char}
    (hrest : Token.EndsLexeme rest) :
    Token.numberLexeme (poweredText d ++ rest) = poweredText d := by
  have hmantissa : (mantissaText d ++ 'e' :: (powerText (d.exponent + 6) ++ rest)).takeWhile
      Token.inMantissa = mantissaText d :=
    takeWhile_front (fun c => inMantissa_of_mem_mantissaText)
      (by simp [Token.inMantissa])
  rw [poweredText, List.append_assoc, List.cons_append, Token.numberLexeme]
  simp only [hmantissa, List.drop_left, exponentLexeme_powerText _ hrest]

theorem read?_poweredText {d : Decimal} (hle : 10 ^ 6 ≤ d.coefficient)
    (hlt : d.coefficient < 10 ^ 7) : Decimal.read? (poweredText d) = some d := by
  have hlength := length_numeral_eq hle hlt
  have hfirst : (numeral d.coefficient).take 1 ≠ [] := by
    intro hnil
    have hzero := congrArg List.length hnil
    rw [List.length_take, hlength, List.length_nil] at hzero
    omega
  rw [poweredText, mantissaText, List.append_assoc, List.cons_append,
    Decimal.read?_point hfirst
      (fun c hc => isDigit_of_mem_numeral (List.mem_of_mem_take hc))
      (fun c hc => isDigit_of_mem_numeral (List.mem_of_mem_drop hc))
      (by simp [Decimal.EndsDigits]),
    read?_powerText, List.take_append_drop, numeralValue_numeral, List.length_drop, hlength]
  simp

theorem scan_poweredText (found : List Token) {d : Decimal} (hle : 10 ^ 6 ≤ d.coefficient)
    (hlt : d.coefficient < 10 ^ 7) {rest : List Char} (hrest : Token.EndsLexeme rest) :
    Token.scan found 0 (poweredText d ++ rest) =
      Token.scan (.number (d.toDouble false) :: found) 0 rest := by
  have hlexeme := numberLexeme_poweredText d hrest
  have hread := read?_poweredText hle hlt
  have hminus : '−' ∉ poweredText d := by
    intro hmem
    rw [poweredText, List.mem_append, List.mem_cons] at hmem
    rcases hmem with hmantissa | hmark | hpower
    · exact absurd (inMantissa_of_mem_mantissaText hmantissa) (by decide)
    · exact absurd hmark (by decide)
    · exact absurd (isDigit_of_mem_powerText hpower) (by decide)
  obtain ⟨c, mantissa, hcons⟩ := List.exists_cons_of_ne_nil
    (by simp [mantissaText] : mantissaText d ≠ [])
  have hhead : Token.inMantissa c = true :=
    inMantissa_of_mem_mantissaText (hcons ▸ List.mem_cons_self : c ∈ mantissaText d)
  rw [poweredText, hcons, List.cons_append] at hlexeme hread hminus ⊢
  exact Token.scan_number found hlexeme hhead hminus hread

theorem readsAs_poweredText {d : Decimal} (hle : 10 ^ 6 ≤ d.coefficient)
    (hlt : d.coefficient < 10 ^ 7) : ReadsAs (poweredText d) d where
  nonempty := by simp [poweredText]
  solid := by
    intro c hc
    rw [poweredText, List.mem_append, List.mem_cons] at hc
    rcases hc with hmantissa | rfl | hpower
    · exact Token.isBlank_of_inMantissa (inMantissa_of_mem_mantissaText hmantissa)
    · decide
    · rcases isDigit_of_mem_powerText hpower with rfl | rfl | hdigit
      · decide
      · decide
      · exact Token.isBlank_of_inMantissa (Token.inMantissa_of_isDigit hdigit)
  scan := by
    intro found
    have hscan := scan_poweredText found hle hlt Token.endsLexeme_nil
    rwa [List.append_nil] at hscan

/-! ### Evaluation -/

theorem neg_toDouble (d : Decimal) (negative : Bool) :
    -(d.toDouble negative) = d.toDouble (!negative) := by
  have htop : d.pattern double ≤ 2047 * 2 ^ 52 := d.pattern_le_top
  have hpattern : Double.pattern (d.toDouble negative) = d.pattern double :=
    Double.pattern_ofPattern negative htop
  have hnegative : Double.negative (d.toDouble negative) = negative :=
    Double.negative_ofPattern negative htop
  rw [Double.neg_eq (by rw [hpattern]; exact htop), hpattern, hnegative]
  rfl

theorem compile_number {text : List Char} {d : Decimal} (h : ReadsAs text d) :
    compile text = .ok (.number (d.toDouble false)) := by
  have hsentence : Grammar.Sentence [.number (d.toDouble false)]
      (.number (d.toDouble false)) :=
    Expr.sentence_tokens (.number (d.toDouble false))
  exact compile_of_sentence h.nonempty h.solid (h.scan []) (List.isChain_singleton _) hsentence
    (by simp [Grammar.Tree.expr, Expr.height])

theorem compile_minus {text : List Char} {d : Decimal} (h : ReadsAs text d) :
    compile ('-' :: text) = .ok (.neg (.number (d.toDouble false))) := by
  have hphrase := Expr.phrase_tokens (.number (d.toDouble false))
  have hsentence : Grammar.Sentence [.minus, .number (d.toDouble false)]
      (.neg (.number (d.toDouble false))) :=
    .ofTighter .sum (.ofTighter .product (.ofTighter .power (.neg (.ofTighter .unary hphrase))))
  have hsolid : ∀ c ∈ '-' :: text, Text.isBlank c = false := by
    intro c hc
    rcases List.mem_cons.mp hc with rfl | hmem
    · decide
    · exact h.solid c hmem
  refine compile_of_sentence (by simp) hsolid ?_
    (Token.unmultiplied_cons (Or.inl rfl) (List.isChain_singleton _)) hsentence
    (by simp [Grammar.Tree.expr, Expr.height])
  rw [Token.scan_symbol [] text rfl, h.scan]
  rfl

/-- A signed text of one number has the value of that number. -/
theorem evaluate_signed (mode : AngleMode) (negative : Bool) {text : List Char} {d : Decimal}
    (h : ReadsAs text d) :
    evaluate mode (signed negative text) = Outcome.ofFloat (d.toDouble negative) := by
  cases negative with
  | false =>
      rw [evaluate, signed, if_neg (by decide), compile_number h]
      rfl
  | true =>
      have hvalue : -(d.toDouble false) = d.toDouble true := neg_toDouble d false
      rw [evaluate, signed, if_pos rfl, compile_minus h, ← hvalue]
      rfl

end GraphCalc.Display
