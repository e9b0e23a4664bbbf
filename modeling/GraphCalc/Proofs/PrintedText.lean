/-
Printed expressions.  The text of an expression is read as its tokens, with no
product between them, and the parentheses make every operation a phrase of its
own; so compiling the text gives the expression back.
-/
import GraphCalc.Compile
import GraphCalc.Proofs.DecimalValues
import GraphCalc.Proofs.DoubleBits
import GraphCalc.Proofs.Lexemes
import GraphCalc.Proofs.TreeBuilding
namespace GraphCalc

/-! ### Literal numbers -/

namespace Double

theorem pattern_lt_top {v : Float} (h : v.isFinite = true) :
    pattern v < Layout.double.top := by
  rw [isFinite_eq] at h
  exact of_decide_eq_true h

theorem plainText_eq {v : Float} (h : v.isFinite = true) :
    plainText v = signed (negative v) (shortest v).positional := by
  simp only [plainText, textWith, isNaN_of_isFinite h, h, Bool.false_eq_true, if_false, if_true]

/-- The shortest decimal of a finite number is read as the number. -/
theorem toDouble_shortest (sign : Bool) {v : Float} (h : v.isFinite = true) :
    (shortest v).writtenOut.toDouble sign = ofPattern sign (pattern v) := by
  rw [Decimal.toDouble, Decimal.pattern_congr (Decimal.value_writtenOut _), shortest,
    Layout.pattern_shortest (Nat.le_of_lt (pattern_lt_top h))]

theorem toDouble_shortest_self {v : Float} (h : v.isFinite = true) :
    (shortest v).writtenOut.toDouble (negative v) = v := by
  rw [toDouble_shortest _ h, ofPattern_pattern (Nat.le_of_lt (pattern_lt_top h))]

end Double

theorem signed_append (negative : Bool) (text rest : List Char) :
    signed negative text ++ rest = signed negative (text ++ rest) := by
  cases negative <;> rfl

theorem Token.inMantissa_of_mem_positional {d : Decimal} {c : Char}
    (h : c ∈ d.positional) : Token.inMantissa c = true := by
  rw [Token.inMantissa, Bool.or_eq_true, decide_eq_true_eq]
  exact Decimal.isDigit_or_point_of_mem_positional h

namespace Expr

/-- Every literal number of the expression has a property. -/
def Literals (property : Float → Prop) : Expr → Prop
  | number value => property value
  | var => True
  | neg operand => operand.Literals property
  | factorial operand => operand.Literals property
  | call _ argument => argument.Literals property
  | binary _ left right => left.Literals property ∧ right.Literals property

/-- The numbers that are written with digits and a point only. -/
def Unsigned (value : Float) : Prop :=
  value.isFinite = true ∧ Double.negative value = false

/-- The tokens of the text of an expression. -/
def tokens : Expr → List Token
  | number value => [.number value]
  | var => [.var]
  | neg operand => .leftParen :: .minus :: (operand.tokens ++ [.rightParen])
  | factorial operand => .leftParen :: (operand.tokens ++ [.rightParen, .bang])
  | call f argument => .function f :: .leftParen :: (argument.tokens ++ [.rightParen])
  | binary op left right =>
      .leftParen :: (left.tokens ++ op.token :: (right.tokens ++ [.rightParen]))

/-! ### The tokens of the text -/

theorem ofSymbol?_sign (op : BinaryOp) : Token.ofSymbol? op.sign = some op.token := by
  cases op <;> rfl

theorem plainText_of_unsigned {value : Float} (h : Unsigned value) :
    Double.plainText value = (Double.shortest value).positional := by
  rw [Double.plainText_eq h.1, h.2]
  rfl

theorem scan_literal (found : List Token) {rest : List Char} {value : Float}
    (h : Unsigned value) (hrest : Token.EndsLexeme rest) :
    Token.scan found 0 (Double.plainText value ++ rest) =
      Token.scan (.number value :: found) 0 rest := by
  have hvalue := Double.toDouble_shortest_self h.1
  rw [h.2] at hvalue
  rw [plainText_of_unsigned h, Token.scan_mantissa found (Decimal.positional_ne_nil _)
    (fun c => Token.inMantissa_of_mem_positional) (Decimal.read?_positional _) hrest, hvalue]

/-- The text of an expression is read as its tokens wherever it stands. -/
theorem scan_text {e : Expr} (h : e.Literals Unsigned) (found : List Token)
    {rest : List Char} (hrest : Token.EndsLexeme rest) :
    Token.scan found 0 (e.text ++ rest) = Token.scan (e.tokens.reverse ++ found) 0 rest := by
  have hclose : ∀ rest : List Char, Token.EndsLexeme (')' :: rest) :=
    fun rest => Token.endsLexeme_symbol rest rfl
  induction e generalizing found rest with
  | number value => exact scan_literal found h hrest
  | var => exact Token.scan_var found hrest
  | neg operand ih =>
      simp only [text, List.cons_append, List.append_assoc, List.nil_append]
      rw [Token.scan_symbol _ _ rfl, Token.scan_symbol _ _ rfl, ih h _ (hclose rest),
        Token.scan_symbol _ _ rfl]
      simp [tokens]
  | factorial operand ih =>
      simp only [text, List.cons_append, List.append_assoc, List.nil_append]
      rw [Token.scan_symbol _ _ rfl, ih h _ (hclose _), Token.scan_symbol _ _ rfl,
        Token.scan_symbol _ _ rfl]
      simp [tokens]
  | call f argument ih =>
      simp only [text, List.cons_append, List.append_assoc, List.nil_append]
      rw [Token.scan_function _ f (Token.endsLexeme_symbol _ rfl), Token.scan_symbol _ _ rfl,
        ih h _ (hclose rest), Token.scan_symbol _ _ rfl]
      simp [tokens]
  | binary op left right ihleft ihright =>
      have hsign := ofSymbol?_sign op
      simp only [text, List.cons_append, List.append_assoc, List.nil_append]
      rw [Token.scan_symbol _ _ rfl, ihleft h.1 _ (Token.endsLexeme_symbol _ hsign),
        Token.scan_symbol _ _ hsign, ihright h.2 _ (hclose rest), Token.scan_symbol _ _ rfl]
      simp [tokens]

/-- No product stands unwritten in the text. -/
theorem unmultiplied_tokens (e : Expr) {rest : List Token} (hrest : Token.Unmultiplied rest)
    (hbegins : ∀ token ∈ rest.head?, token.beginsValue = false) :
    Token.Unmultiplied (e.tokens ++ rest) := by
  have hclose : ∀ {rest : List Token}, Token.Unmultiplied rest →
      (∀ token ∈ rest.head?, token.beginsValue = false) →
        Token.Unmultiplied (.rightParen :: rest) :=
    fun hrest hbegins => Token.unmultiplied_cons (Or.inr hbegins) hrest
  induction e generalizing rest with
  | number value => exact Token.unmultiplied_cons (Or.inr hbegins) hrest
  | var => exact Token.unmultiplied_cons (Or.inr hbegins) hrest
  | neg operand ih =>
      simp only [tokens, List.cons_append, List.append_assoc, List.nil_append]
      exact Token.unmultiplied_cons (Or.inl rfl) (Token.unmultiplied_cons (Or.inl rfl)
        (ih (hclose hrest hbegins) (by simp [Token.beginsValue])))
  | factorial operand ih =>
      simp only [tokens, List.cons_append, List.append_assoc, List.nil_append]
      have hbang : Token.Unmultiplied (.bang :: rest) :=
        Token.unmultiplied_cons (Or.inr hbegins) hrest
      exact Token.unmultiplied_cons (Or.inl rfl)
        (ih (hclose hbang (by simp [Token.beginsValue])) (by simp [Token.beginsValue]))
  | call f argument ih =>
      simp only [tokens, List.cons_append, List.append_assoc, List.nil_append]
      exact Token.unmultiplied_cons (Or.inl rfl) (Token.unmultiplied_cons (Or.inl rfl)
        (ih (hclose hrest hbegins) (by simp [Token.beginsValue])))
  | binary op left right ihleft ihright =>
      have hop : op.token.endsValue = false ∧ op.token.beginsValue = false := by
        cases op <;> decide
      simp only [tokens, List.cons_append, List.append_assoc, List.nil_append]
      have hright := ihright (hclose hrest hbegins) (by simp [Token.beginsValue])
      exact Token.unmultiplied_cons (Or.inl rfl)
        (ihleft (Token.unmultiplied_cons (Or.inl hop.1) hright) (by simp [hop.2]))

/-! ### Blanks -/

theorem isBlank_of_mem_text {e : Expr} (h : e.Literals Unsigned) :
    ∀ c ∈ e.text, Text.isBlank c = false := by
  induction e with
  | number value =>
      intro c hc
      rw [text, plainText_of_unsigned h] at hc
      exact Token.isBlank_of_inMantissa (Token.inMantissa_of_mem_positional hc)
  | var =>
      intro c hc
      rw [List.mem_singleton.mp hc]
      decide
  | neg operand ih =>
      intro c hc
      simp only [text, List.mem_cons, List.mem_append, List.not_mem_nil, or_false] at hc
      rcases hc with rfl | rfl | hc | rfl
      · decide
      · decide
      · exact ih h c hc
      · decide
  | factorial operand ih =>
      intro c hc
      simp only [text, List.mem_cons, List.mem_append, List.not_mem_nil, or_false] at hc
      rcases hc with rfl | hc | rfl | rfl
      · decide
      · exact ih h c hc
      · decide
      · decide
  | call f argument ih =>
      intro c hc
      have hname : ∀ c ∈ f.name.toList, c.isAlpha = true :=
        List.all_eq_true.mp (by cases f <;> decide)
      simp only [text, List.mem_cons, List.mem_append, List.not_mem_nil, or_false] at hc
      rcases hc with hc | rfl | hc | rfl
      · exact Token.isBlank_of_isAlpha (hname c hc)
      · decide
      · exact ih h c hc
      · decide
  | binary op left right ihleft ihright =>
      intro c hc
      simp only [text, List.mem_cons, List.mem_append, List.not_mem_nil, or_false] at hc
      rcases hc with rfl | hc | rfl | hc | rfl
      · decide
      · exact ihleft h.1 c hc
      · cases op <;> decide
      · exact ihright h.2 c hc
      · decide

theorem text_ne_nil {e : Expr} (h : e.Literals Unsigned) : e.text ≠ [] := by
  cases e with
  | number value =>
      rw [text, plainText_of_unsigned h]
      exact Decimal.positional_ne_nil _
  | call f argument => simp [text]
  | _ => simp [text]

end Expr

/-- A text without blanks is not shortened. -/
theorem Text.trim_eq_self {text : List Char} (h : ∀ c ∈ text, Text.isBlank c = false) :
    Text.trim text = text := by
  have hdrop : ∀ {text : List Char}, (∀ c ∈ text, Text.isBlank c = false) →
      text.dropWhile Text.isBlank = text := by
    intro text h
    cases text with
    | nil => rfl
    | cons c rest => simp [h c List.mem_cons_self]
  rw [Text.trim, hdrop h, hdrop (fun c hc => h c (List.mem_reverse.mp hc)), List.reverse_reverse]

namespace Expr

open Grammar

/-! ### The sentence of the text -/

/-- The tree of an expression, where every root is a call. -/
def tree : Expr → Tree
  | number value => .number value
  | var => .var
  | neg operand => .neg operand.tree
  | factorial operand => .factorial operand.tree
  | call f argument => .call f argument.tree
  | binary op left right => .binary op left.tree right.tree

theorem expr_tree (e : Expr) : e.tree.expr = e := by
  induction e with
  | number value => rfl
  | var => rfl
  | neg operand ih => rw [tree, Tree.expr, ih]
  | factorial operand ih => rw [tree, Tree.expr, ih]
  | call f argument ih => rw [tree, Tree.expr, ih]
  | binary op left right ihleft ihright => rw [tree, Tree.expr, ihleft, ihright]

theorem phrase_binary (op : BinaryOp) {left right : List Token} {first last : Tree}
    (hleft : Phrase .factorial left first) (hright : Phrase .factorial right last) :
    Phrase .sum (left ++ op.token :: right) (.binary op first last) := by
  have hunary := Phrase.ofTighter .unary hleft
  have hpower := Phrase.ofTighter .power hunary
  have hproduct := Phrase.ofTighter .product hpower
  have hpower' := Phrase.ofTighter .power (Phrase.ofTighter .unary hright)
  have hproduct' := Phrase.ofTighter .product hpower'
  cases op with
  | add => exact Phrase.row rfl (Phrase.ofTighter .sum hproduct) hproduct'
  | sub => exact Phrase.row rfl (Phrase.ofTighter .sum hproduct) hproduct'
  | mul => exact Phrase.ofTighter .sum (Phrase.row rfl hproduct hpower')
  | div => exact Phrase.ofTighter .sum (Phrase.row rfl hproduct hpower')
  | pow => exact Phrase.ofTighter .sum (Phrase.ofTighter .product (Phrase.power hunary hpower'))

/-- The printed parentheses leave no choice: the tokens are a phrase that no
operator outside can break up. -/
theorem phrase_tokens (e : Expr) : Phrase .factorial e.tokens e.tree := by
  have hsum : ∀ {tokens : List Token} {tree : Tree}, Phrase .unary tokens tree →
      Phrase .sum tokens tree := fun h =>
    Phrase.ofTighter .sum (Phrase.ofTighter .product (Phrase.ofTighter .power h))
  induction e with
  | number value => exact Phrase.ofTighter .factorial (Phrase.number value)
  | var => exact Phrase.ofTighter .factorial Phrase.var
  | neg operand ih =>
      exact Phrase.ofTighter .factorial
        (Phrase.group (hsum (Phrase.neg (Phrase.ofTighter .unary ih))))
  | factorial operand ih =>
      have hgroup := Phrase.bang
        (Phrase.ofTighter .factorial (Phrase.group (hsum (Phrase.ofTighter .unary ih))))
      rwa [List.cons_append, List.append_assoc] at hgroup
  | call f argument ih =>
      exact Phrase.ofTighter .factorial (Phrase.call f (hsum (Phrase.ofTighter .unary ih)))
  | binary op left right ihleft ihright =>
      have hgroup := Phrase.ofTighter .factorial
        (Phrase.group (phrase_binary op ihleft ihright))
      rwa [List.append_assoc, List.cons_append] at hgroup

theorem sentence_tokens (e : Expr) : Sentence e.tokens e.tree :=
  Phrase.ofTighter .sum (Phrase.ofTighter .product (Phrase.ofTighter .power
    (Phrase.ofTighter .unary e.phrase_tokens)))

end Expr

/-- A text without blanks whose tokens are a sentence is compiled to its tree, if
that is not too high. -/
theorem compile_of_sentence {text : List Char} {tokens : List Token} {tree : Grammar.Tree}
    (hne : text ≠ []) (hsolid : ∀ c ∈ text, Text.isBlank c = false)
    (hscan : Token.scan [] 0 text = .ok tokens) (hproducts : Token.Unmultiplied tokens)
    (hsentence : Grammar.Sentence tokens tree) (hheight : tree.expr.height ≤ 1000) :
    compile text = .ok tree.expr := by
  have hempty : text.isEmpty = false := by simpa using hne
  have htokens : Token.tokenize text = .ok tokens := by
    rw [Token.tokenize, Token.written, hscan, Except.map, Token.withProducts_eq_self hproducts]
  have htree := Grammar.toExpr_listing tree
  rw [if_pos (show tree.expr.height ≤ Postfix.heightLimit from hheight)] at htree
  simp only [compile, Text.trim_eq_self hsolid, hempty, htokens, Bool.false_eq_true, if_false]
  change (Postfix.ofTokens tokens >>= Postfix.toExpr) = .ok tree.expr
  rw [Grammar.ofTokens_sentence hsentence]
  exact htree

/-- Printing and compiling is the identity: an expression up to the height limit
whose literal numbers are finite and unsigned is compiled from its own text. -/
theorem compile_text {e : Expr} (hliterals : e.Literals Expr.Unsigned)
    (hheight : e.height ≤ 1000) : compile e.text = .ok e := by
  have hscan := Expr.scan_text hliterals [] Token.endsLexeme_nil
  have hproducts := e.unmultiplied_tokens List.isChain_nil (by simp)
  rw [List.append_nil] at hscan hproducts
  rw [← e.expr_tree] at hheight
  have hcompile := compile_of_sentence (Expr.text_ne_nil hliterals)
    (Expr.isBlank_of_mem_text hliterals) (hscan.trans (by simp [Token.scan])) hproducts
    e.sentence_tokens hheight
  rwa [e.expr_tree] at hcompile

/-- Nested operations of every kind, with a number that has no exact binary form. -/
theorem compile_text_nested :
    (Expr.neg (.binary .pow (.factorial (.number 0.1)) (.call .sin .var))).text =
        "(-((0.1)!^sin(x)))".toList ∧
      compile "(-((0.1)!^sin(x)))".toList =
        .ok (.neg (.binary .pow (.factorial (.number 0.1)) (.call .sin .var))) := by
  have htext : (Expr.neg (.binary .pow (.factorial (.number 0.1)) (.call .sin .var))).text =
      "(-((0.1)!^sin(x)))".toList := by decide +kernel
  have hliteral : Expr.Unsigned 0.1 := ⟨by decide +kernel, by decide +kernel⟩
  refine ⟨htext, ?_⟩
  rw [← htext]
  exact compile_text ⟨hliteral, trivial⟩ (by decide)

end GraphCalc
