/-
The text of a result in an expression.  Its sign belongs to the number before every
operator, also before a power, but not before a factorial sign, which binds tighter.
-/
import GraphCalc.Proofs.ReadBack
namespace GraphCalc

/-! ### Operands with a sign -/

namespace Grammar

/-- The tokens of an operand that may have a minus sign. -/
def signTokens (negative : Bool) (tokens : List Token) : List Token :=
  if negative then .minus :: tokens else tokens

def signTree (negative : Bool) (tree : Tree) : Tree :=
  if negative then .neg tree else tree

section Sign
variable (negative : Bool) {tokens : List Token} {tree : Tree}

theorem Phrase.sign (h : Phrase .unary tokens tree) :
    Phrase .unary (signTokens negative tokens) (signTree negative tree) := by
  cases negative with
  | false => exact h
  | true => exact .neg h

theorem unmultiplied_signTokens (h : Token.Unmultiplied tokens) :
    Token.Unmultiplied (signTokens negative tokens) := by
  cases negative with
  | false => exact h
  | true => exact Token.unmultiplied_cons (Or.inl rfl) h

theorem signTokens_append (rest : List Token) :
    signTokens negative tokens ++ rest = signTokens negative (tokens ++ rest) := by
  cases negative <;> rfl

end Sign

/-- A sign stays with its operand before every operator. -/
theorem sentence_operator (op : BinaryOp) {left right : List Token} {first last : Tree}
    (hleft : Phrase .unary left first) (hright : Phrase .unary right last) :
    Sentence (left ++ op.token :: right) (.binary op first last) := by
  have hpower := hright.ofTighter .power
  have hbase := hleft.ofTighter .power
  cases op with
  | add | sub =>
      exact ((hbase.ofTighter .product).ofTighter .sum).row rfl (hpower.ofTighter .product)
  | mul | div => exact ((hbase.ofTighter .product).row rfl hpower).ofTighter .sum
  | pow => exact ((hleft.power hpower).ofTighter .product).ofTighter .sum

theorem sentence_unary {tokens : List Token} {tree : Tree} (h : Phrase .unary tokens tree) :
    Sentence tokens tree :=
  ((h.ofTighter .power).ofTighter .product).ofTighter .sum

theorem phrase_number (value : Float) : Phrase .unary [.number value] (.number value) :=
  (Phrase.number value).ofTighter .factorial |>.ofTighter .unary

theorem phrase_bang (value : Float) :
    Phrase .unary [.number value, .bang] (.factorial (.number value)) :=
  ((Phrase.number value).ofTighter .factorial).bang.ofTighter .unary

end Grammar

/-- A text without blanks whose tokens are a sentence without the variable has the
value of its tree. -/
theorem evaluate_of_sentence (mode : AngleMode) {text : List Char} {tokens : List Token}
    {tree : Grammar.Tree} (hne : text ≠ []) (hsolid : ∀ c ∈ text, Text.isBlank c = false)
    (hscan : Token.scan [] 0 text = .ok tokens) (hproducts : Token.Unmultiplied tokens)
    (hsentence : Grammar.Sentence tokens tree) (hheight : tree.expr.height ≤ 1000)
    (hvar : tree.expr.mentionsVar = false) :
    evaluate mode text = Outcome.ofFloat (tree.expr.eval mode 0.0) := by
  rw [evaluate, compile_of_sentence hne hsolid hscan hproducts hsentence hheight]
  simp only [hvar, Bool.false_eq_true, if_false]

/-! ### Rows of digits -/

/-- The number that is typed with a row of digits. -/
def typedNumber (digits : List Char) : Float :=
  Decimal.toDouble false ⟨numeralValue digits, 0⟩

theorem scan_typed (found : List Token) {digits : List Char} (hne : digits ≠ [])
    (hdigits : ∀ c ∈ digits, c.isDigit = true) :
    Token.scan found 0 digits = .ok (.number (typedNumber digits) :: found).reverse :=
  Token.scan_digits found hne hdigits

theorem isBlank_of_isDigit {c : Char} (h : c.isDigit = true) : Text.isBlank c = false :=
  Token.isBlank_of_inMantissa (Token.inMantissa_of_isDigit h)

namespace Display

open Grammar

theorem signed_false (text : List Char) : signed false text = text :=
  rfl

theorem signed_true (text : List Char) : signed true text = '-' :: text :=
  rfl

section Magnitude
variable (negative : Bool) (code : ℕ)

/-- The text of a magnitude is one number wherever it stands. -/
theorem scan_magnitudeText (found : List Token) {rest : List Char}
    (hrest : Token.EndsLexeme rest) :
    Token.scan found 0 (magnitudeText code ++ rest) =
      Token.scan (.number ((readBack code).toDouble false) :: found) 0 rest := by
  rw [magnitudeText, readBack]
  split
  · next hpowered =>
      obtain ⟨hle, hlt⟩ := Double.roundedTo_coefficient (by decide : 0 < 7)
        (powered_pos hpowered)
      exact scan_poweredText found hle hlt hrest
  split
  · exact scan_numeral found _ hrest
  · exact scan_positional found _ hrest

theorem scan_signed {rest : List Char} (hrest : Token.EndsLexeme rest) :
    Token.scan [] 0 (signed negative (magnitudeText code) ++ rest) =
      Token.scan (signTokens negative [.number ((readBack code).toDouble false)]).reverse 0
        rest := by
  cases negative with
  | false =>
      rw [signed_false, scan_magnitudeText code [] hrest]
      rfl
  | true =>
      have hminus : Token.ofSymbol? '-' = some .minus := rfl
      rw [signed_true, List.cons_append, Token.scan_symbol [] _ hminus,
        scan_magnitudeText code _ hrest]
      rfl

theorem isBlank_of_mem_signed {c : Char} (h : c ∈ signed negative (magnitudeText code)) :
    Text.isBlank c = false := by
  have hsolid := (readsAs_magnitudeText code).solid c
  cases negative with
  | false =>
      rw [signed_false] at h
      exact hsolid h
  | true =>
      rw [signed_true] at h
      rcases List.mem_cons.mp h with rfl | hmem
      · decide
      · exact hsolid hmem

theorem signed_ne_nil : signed negative (magnitudeText code) ≠ [] := by
  cases negative with
  | false =>
      rw [signed_false]
      exact (readsAs_magnitudeText code).nonempty
  | true =>
      rw [signed_true]
      exact List.cons_ne_nil _ _

/-- The value of an operand with its sign. -/
theorem eval_signTree (mode : AngleMode) (d : Decimal) :
    (signTree negative (.number (d.toDouble false))).expr.eval mode 0.0 = d.toDouble negative := by
  cases negative with
  | false => rfl
  | true => exact neg_toDouble d false

/-- A result is the whole left operand of an operator behind it. -/
theorem evaluate_operator (mode : AngleMode) {op : BinaryOp} {glyph : Char}
    (hglyph : Token.ofSymbol? glyph = some op.token) {digits : List Char} (hne : digits ≠ [])
    (hdigits : ∀ c ∈ digits, c.isDigit = true) :
    evaluate mode (signed negative (magnitudeText code) ++ glyph :: digits) =
      Outcome.ofFloat (op.apply ((readBack code).toDouble negative) (typedNumber digits)) := by
  obtain ⟨value, hvalue⟩ : ∃ value, value = (readBack code).toDouble false := ⟨_, rfl⟩
  have hscan : Token.scan [] 0 (signed negative (magnitudeText code) ++ glyph :: digits) =
      .ok (signTokens negative [.number value] ++ op.token :: [.number (typedNumber digits)]) := by
    rw [scan_signed negative code (Token.endsLexeme_symbol digits hglyph),
      Token.scan_symbol _ _ hglyph, scan_typed _ hne hdigits, hvalue]
    simp
  have hsolid : ∀ c ∈ signed negative (magnitudeText code) ++ glyph :: digits,
      Text.isBlank c = false := by
    intro c hc
    rcases List.mem_append.mp hc with hleft | hright
    · exact isBlank_of_mem_signed negative code hleft
    · rcases List.mem_cons.mp hright with rfl | hdigit
      · exact (Token.of_ofSymbol? hglyph).2.2
      · exact isBlank_of_isDigit (hdigits c hdigit)
  have hproducts : Token.Unmultiplied (signTokens negative [.number value] ++
      op.token :: [.number (typedNumber digits)]) := by
    rw [signTokens_append]
    refine unmultiplied_signTokens negative (Token.unmultiplied_cons (Or.inr ?_)
      (Token.unmultiplied_cons (Or.inl ?_) (List.isChain_singleton _)))
    · intro token htoken
      rw [← Option.some.inj htoken]
      cases op <;> rfl
    · cases op <;> rfl
  have hsentence := sentence_operator op ((phrase_number value).sign negative)
    (phrase_number (typedNumber digits))
  have hheight : (Tree.binary op (signTree negative (.number value))
      (.number (typedNumber digits))).expr.height ≤ 1000 := by
    cases negative <;> simp [signTree, Tree.expr, Expr.height]
  have hvar : (Tree.binary op (signTree negative (.number value))
      (.number (typedNumber digits))).expr.mentionsVar = false := by
    cases negative <;> rfl
  rw [evaluate_of_sentence mode (by simp) hsolid hscan hproducts hsentence hheight hvar]
  simp only [Tree.expr, Expr.eval, hvalue, eval_signTree]

/-- A factorial sign behind a result belongs to its magnitude. -/
theorem evaluate_bang (mode : AngleMode) :
    evaluate mode (signed negative (magnitudeText code) ++ ['!']) =
      Outcome.ofFloat (if negative then -factorial ((readBack code).toDouble false)
        else factorial ((readBack code).toDouble false)) := by
  obtain ⟨value, hvalue⟩ : ∃ value, value = (readBack code).toDouble false := ⟨_, rfl⟩
  have hbang : Token.ofSymbol? '!' = some .bang := rfl
  have hscan : Token.scan [] 0 (signed negative (magnitudeText code) ++ ['!']) =
      .ok (signTokens negative [.number value, .bang]) := by
    rw [scan_signed negative code (Token.endsLexeme_symbol [] hbang),
      Token.scan_symbol _ _ hbang, Token.scan, ← hvalue]
    cases negative <;> rfl
  have hsolid : ∀ c ∈ signed negative (magnitudeText code) ++ ['!'],
      Text.isBlank c = false := by
    intro c hc
    rcases List.mem_append.mp hc with hleft | hright
    · exact isBlank_of_mem_signed negative code hleft
    · rw [List.mem_singleton.mp hright]
      decide
  have hproducts : Token.Unmultiplied (signTokens negative [.number value, .bang]) := by
    refine unmultiplied_signTokens negative (Token.unmultiplied_cons (Or.inr ?_)
      (List.isChain_singleton _))
    intro token htoken
    rw [← Option.some.inj htoken]
    rfl
  have hsentence := sentence_unary ((phrase_bang value).sign negative)
  have hheight : (signTree negative (.factorial (.number value))).expr.height ≤ 1000 := by
    cases negative <;> simp [signTree, Tree.expr, Expr.height]
  have hvar : (signTree negative (.factorial (.number value))).expr.mentionsVar = false := by
    cases negative <;> rfl
  rw [evaluate_of_sentence mode (by simp) hsolid hscan hproducts hsentence hheight hvar, ← hvalue]
  cases negative <;> simp [signTree, Tree.expr, Expr.eval]

end Magnitude

/-- A row of digits behind a minus sign is a negative number. -/
theorem evaluate_minus (mode : AngleMode) {sign : Char}
    (hsign : Token.ofSymbol? sign = some .minus) {digits : List Char} (hne : digits ≠ [])
    (hdigits : ∀ c ∈ digits, c.isDigit = true) :
    evaluate mode (sign :: digits) = Outcome.ofFloat (-typedNumber digits) := by
  have hscan : Token.scan [] 0 (sign :: digits) =
      .ok [.minus, .number (typedNumber digits)] := by
    rw [Token.scan_symbol _ _ hsign, scan_typed _ hne hdigits]
    rfl
  have hsolid : ∀ c ∈ sign :: digits, Text.isBlank c = false := by
    intro c hc
    rcases List.mem_cons.mp hc with rfl | hdigit
    · exact (Token.of_ofSymbol? hsign).2.2
    · exact isBlank_of_isDigit (hdigits c hdigit)
  have hsentence : Sentence [.minus, .number (typedNumber digits)]
      (.neg (.number (typedNumber digits))) :=
    sentence_unary (.neg (phrase_number (typedNumber digits)))
  have hvalue := evaluate_of_sentence mode (List.cons_ne_nil _ _) hsolid hscan
    (Token.unmultiplied_cons (Or.inl rfl) (List.isChain_singleton _)) hsentence
    (by simp [Tree.expr, Expr.height]) rfl
  rwa [Tree.expr, Tree.expr, Expr.eval, Expr.eval] at hvalue

end Display

end GraphCalc
