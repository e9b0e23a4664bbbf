/-
Texts that are put together from texts.  In parentheses a text keeps its tokens and
its unwritten products, wherever it stands, and is one operand for what stands around
it.  So the expression of the whole is built from the expressions of the parts.
-/
import GraphCalc.Proofs.SignedOperands
import GraphCalc.Proofs.TextEnds
namespace GraphCalc

def inParens (text : List Char) : List Char :=
  '(' :: (text ++ [')'])

/-- The characters that are read as an operator. -/
def BinaryOp.spellings : BinaryOp → List Char
  | .add => ['+']
  | .sub => ['-', '−', '–', '—']
  | .mul => ['*', '×', '·']
  | .div => ['/', '÷']
  | .pow => ['^']

namespace Token

def group (tokens : List Token) : List Token :=
  .leftParen :: (tokens ++ [.rightParen])

/-! ### The tokens of the whole -/

theorem ofSymbol?_of_mem_spellings {op : BinaryOp} {glyph : Char} (h : glyph ∈ op.spellings) :
    ofSymbol? glyph = some op.token := by
  revert glyph
  cases op <;> simp [BinaryOp.spellings, ofSymbol?, BinaryOp.token]

/-- The tokens found before stand before those that are still to be read. -/
theorem scan_found (found : List Token) (skipped : ℕ) (text : List Char) :
    scan found skipped text =
      (scan [] skipped text).map (fun tokens => found.reverse ++ tokens) := by
  induction text generalizing found skipped with
  | nil => simp [scan, Except.map]
  | cons c rest ih =>
      cases skipped with
      | succ skipped => exact ih found skipped
      | zero =>
          rw [scan, scan]
          split
          · exact ih found 0
          · cases first c rest with
            | error e => rfl
            | ok next =>
                change scan (next.1 :: found) next.2 rest =
                  (scan [next.1] next.2 rest).map (fun tokens => found.reverse ++ tokens)
                rw [ih (next.1 :: found), ih [next.1]]
                cases scan [] next.2 rest with
                | error e => rfl
                | ok tokens => simp [Except.map]

theorem found_begins {found tokens : List Token} {skipped : ℕ} {text : List Char}
    (h : scan found skipped text = .ok tokens) : found.reverse <+: tokens := by
  rw [scan_found] at h
  cases hmore : scan [] skipped text with
  | error e =>
      rw [hmore] at h
      contradiction
  | ok more =>
      rw [hmore] at h
      exact ⟨more, Except.ok.inj h⟩

/-- No lexeme goes on behind a closing parenthesis. -/
theorem endsBefore_close (rest : List Char) : EndsBefore ')' rest :=
  ⟨by decide, by decide, Or.inl (by decide)⟩

/-- A text in parentheses is read as its tokens in parentheses wherever it stands. -/
theorem scan_inParens (found : List Token) {text : List Char} {tokens : List Token}
    (h : written text = .ok tokens) (rest : List Char) :
    scan found 0 (inParens text ++ rest) = scan ((group tokens).reverse ++ found) 0 rest := by
  have hopen : ofSymbol? '(' = some leftParen := rfl
  have hclose : ofSymbol? ')' = some rightParen := rfl
  have htext : inParens text ++ rest = '(' :: (text ++ ')' :: rest) := by simp [inParens]
  have hinside : scan (leftParen :: found) 0 text =
      .ok ((leftParen :: found).reverse ++ tokens) := by
    rw [scan_found, show scan [] 0 text = .ok tokens from h]
    rfl
  rw [htext, scan_symbol found _ hopen,
    scan_append (by decide) (endsBefore_close rest) _ (Nat.zero_le _), hinside]
  change scan ((leftParen :: found).reverse ++ tokens).reverse 0 (')' :: rest) = _
  rw [scan_symbol _ _ hclose]
  simp [group]

theorem scan_inParens_end (found : List Token) {text : List Char} {tokens : List Token}
    (h : written text = .ok tokens) :
    scan found 0 (inParens text) = .ok (found.reverse ++ group tokens) := by
  have hscan := scan_inParens found h []
  rw [List.append_nil] at hscan
  rw [hscan]
  simp [scan]

/-! ### The products of the whole -/

theorem withProducts_cons_cons (left right : Token) (rest : List Token) :
    withProducts (left :: right :: rest) =
      left ::
        ((if left.multiplies right then [times] else []) ++ withProducts (right :: rest)) := by
  rw [withProducts]
  split <;> rfl

/-- Products are written into a row part by part: between two parts there is one just
where the first ends and the second begins a value. -/
theorem withProducts_append (front : List Token) (left right : Token) (rest : List Token) :
    withProducts (front ++ left :: right :: rest) =
      withProducts (front ++ [left]) ++
        ((if left.multiplies right then [times] else []) ++ withProducts (right :: rest)) := by
  induction front with
  | nil => exact withProducts_cons_cons left right rest
  | cons head front ih =>
      cases front with
      | nil =>
          simp only [List.cons_append, List.nil_append] at ih ⊢
          rw [withProducts_cons_cons head left, withProducts_cons_cons head left, ih]
          simp
      | cons next front =>
          simp only [List.cons_append] at ih ⊢
          rw [withProducts_cons_cons head next, withProducts_cons_cons head next, ih]
          simp

/-- Nothing is multiplied behind a token that ends no value. -/
theorem withProducts_cons {left : Token} (h : left.endsValue = false) (rest : List Token) :
    withProducts (left :: rest) = left :: withProducts rest := by
  cases rest with
  | nil => rfl
  | cons right rest =>
      have hnone : left.multiplies right = false := by simp [multiplies, h]
      rw [withProducts_cons_cons, hnone]
      rfl

/-- A row in parentheses has the products that it has alone. -/
theorem withProducts_group (tokens : List Token) :
    withProducts (group tokens) = group (withProducts tokens) := by
  rw [group, withProducts_cons rfl, group]
  rcases List.eq_nil_or_concat tokens with rfl | ⟨front, last, rfl⟩
  · rfl
  · have hclose : last.multiplies rightParen = false := by simp [multiplies, beginsValue]
    rw [List.concat_eq_append, List.append_assoc, List.singleton_append, withProducts_append,
      hclose]
    rfl

/-- Behind a row in parentheses there is a product where a value begins. -/
theorem withProducts_group_append (tokens : List Token) (right : Token) (rest : List Token) :
    withProducts (group tokens ++ right :: rest) =
      group (withProducts tokens) ++
        ((if right.beginsValue then [times] else []) ++ withProducts (right :: rest)) := by
  have hseam : rightParen.multiplies right = right.beginsValue := by
    simp [multiplies, endsValue, isNumber]
  have hgroup : group tokens ++ right :: rest =
      (leftParen :: tokens) ++ rightParen :: right :: rest := by simp [group]
  rw [hgroup, withProducts_append, hseam, ← withProducts_group]
  rfl

end Token

open Token Grammar

/-! ### What a text says -/

/-- The tokens of a text, and the tree of the sentence that they are with their
products. -/
structure Says (text : List Char) (tokens : List Token) (tree : Tree) : Prop where
  written : written text = .ok tokens
  sentence : Sentence (withProducts tokens) tree

theorem Says.ne_nil {text : List Char} {tokens : List Token} {tree : Tree}
    (h : Says text tokens tree) : Text.trim text ≠ [] := by
  intro hempty
  have hwritten := h.written
  rw [← written_trim, hempty] at hwritten
  obtain rfl : [] = tokens := Except.ok.inj hwritten
  obtain ⟨last, hlast, -⟩ := Phrase.endsValue h.sentence
  contradiction

/-- A text is compiled just when it says something that is not too high. -/
theorem compile_eq_ok_iff {text : List Char} {e : Expr} :
    compile text = .ok e ↔ ∃ (tokens : List Token) (tree : Tree),
      Says text tokens tree ∧ tree.expr = e ∧ e.height ≤ 1000 := by
  constructor
  · intro h
    obtain ⟨tokens, tree, hwritten, hsentence, hexpr⟩ := exists_tokens_of_compile h
    rw [toExpr_listing] at hexpr
    split at hexpr
    · next hheight =>
        obtain rfl := Except.ok.inj hexpr
        exact ⟨tokens, tree, ⟨hwritten, hsentence⟩, rfl, hheight⟩
    · contradiction
  · rintro ⟨tokens, tree, hsays, rfl, hheight⟩
    rw [compile_eq, if_neg (by simpa using hsays.ne_nil), hsays.written]
    change (Postfix.ofTokens (withProducts tokens)).bind Postfix.toExpr = .ok tree.expr
    rw [ofTokens_sentence hsays.sentence]
    exact (toExpr_listing tree).trans (if_pos hheight)

theorem phrase_group {tokens : List Token} {tree : Tree} (h : Sentence tokens tree) :
    Phrase .factorial (group tokens) tree :=
  (Phrase.group h).ofTighter .factorial

namespace Says
variable {a b : List Char} {first second : List Token} {left right : Tree}

theorem group (h : Says a first left) : Says (inParens a) (group first) left where
  written := scan_inParens_end [] h.written
  sentence := by
    rw [withProducts_group]
    exact sentence_unary ((phrase_group h.sentence).ofTighter .unary)

/-- An operator between two texts in parentheses. -/
theorem operator (ha : Says a first left) (hb : Says b second right) {op : BinaryOp}
    {glyph : Char} (hglyph : ofSymbol? glyph = some op.token) :
    Says (inParens a ++ glyph :: inParens b) (Token.group first ++ op.token :: Token.group second)
      (.binary op left right) where
  written := by
    rw [Token.written, scan_inParens [] ha.written, scan_symbol _ _ hglyph,
      scan_inParens_end _ hb.written]
    simp
  sentence := by
    have hop : op.token.beginsValue = false ∧ op.token.endsValue = false := by
      cases op <;> exact ⟨rfl, rfl⟩
    rw [withProducts_group_append, hop.1, withProducts_cons hop.2, withProducts_group]
    exact sentence_operator op ((phrase_group ha.sentence).ofTighter .unary)
      ((phrase_group hb.sentence).ofTighter .unary)

/-- Two texts in parentheses next to each other are a product. -/
theorem product (ha : Says a first left) (hb : Says b second right) :
    Says (inParens a ++ inParens b) (Token.group first ++ Token.group second)
      (.binary .mul left right) where
  written := by
    rw [Token.written, scan_inParens [] ha.written, scan_inParens_end _ hb.written]
    simp
  sentence := by
    have hproduct := withProducts_group_append first leftParen (second ++ [rightParen])
    have hgroup : withProducts (leftParen :: (second ++ [rightParen])) =
        Token.group (withProducts second) := withProducts_group second
    rw [hgroup] at hproduct
    rw [show Token.group first ++ Token.group second =
      Token.group first ++ leftParen :: (second ++ [rightParen]) from rfl, hproduct]
    exact sentence_operator .mul ((phrase_group ha.sentence).ofTighter .unary)
      ((phrase_group hb.sentence).ofTighter .unary)

/-- The name of a function, in capital or small letters, before a text in parentheses. -/
theorem call (h : Says a first left) {f : Function} {name : List Char}
    (hname : lowerCase name = f.name.toList) :
    Says (name ++ inParens a) (.function f :: Token.group first) (.call f left) where
  written := by
    have hword : ofLetters? f.name.toList = some (f.name.toList, .function f) := by
      cases f <;> decide
    have hlower : ∀ c ∈ f.name.toList, c.isLower = true :=
      List.all_eq_true.mp (by cases f <;> decide)
    have hletters : ∀ c ∈ name, c.isAlpha = true := by
      intro c hc
      have hmem : c.toLower ∈ f.name.toList := hname ▸ List.mem_map_of_mem hc
      rw [← Char.isLower_toLower_eq_isAlpha]
      exact hlower _ hmem
    have hne : name ≠ [] := by
      rintro rfl
      revert hname
      cases f <;> decide
    obtain ⟨c, letters, rfl⟩ := List.exists_cons_of_ne_nil hne
    have hopen : EndsLexeme (inParens a) := endsLexeme_symbol _ (rfl : ofSymbol? '(' = _)
    rw [← hname] at hword
    rw [Token.written, List.cons_append, scan_word [] c letters hletters hopen hword,
      scan_inParens_end _ h.written]
    rfl
  sentence := by
    rw [withProducts_cons rfl, withProducts_group]
    exact sentence_unary (((Phrase.call f h.sentence).ofTighter .factorial).ofTighter .unary)

theorem bang (h : Says a first left) :
    Says (inParens a ++ ['!']) (Token.group first ++ [.bang]) (.factorial left) where
  written := by
    have hbang : ofSymbol? '!' = some .bang := rfl
    rw [Token.written, scan_inParens [] h.written, scan_symbol _ _ hbang, scan]
    simp
  sentence := by
    rw [withProducts_group_append]
    exact sentence_unary ((phrase_group h.sentence).bang.ofTighter .unary)

/-- A sign before a text in parentheses, where the sign is one before an operand. -/
theorem sign (h : Says a first left) {glyph : Char} {token : Token} {build : Tree → Tree}
    (hglyph : ofSymbol? glyph = some token) (hends : token.endsValue = false)
    (hbuild : ∀ {tokens : List Token} {tree : Tree}, Phrase .unary tokens tree →
      Phrase .unary (token :: tokens) (build tree)) :
    Says (glyph :: inParens a) (token :: Token.group first) (build left) where
  written := by
    rw [Token.written, scan_symbol _ _ hglyph, scan_inParens_end _ h.written]
    rfl
  sentence := by
    rw [withProducts_cons hends, withProducts_group]
    exact sentence_unary (hbuild ((phrase_group h.sentence).ofTighter .unary))

end Says

/-! ### Compiled texts -/

/-- Compiling is compositional: what is built from texts in parentheses is compiled to
what is built from their expressions. -/
theorem compile_composed {a b : List Char} {left right : Expr} (ha : compile a = .ok left)
    (hb : compile b = .ok right) (hleft : left.height < 1000) (hright : right.height < 1000) :
    (∀ (op : BinaryOp), ∀ glyph ∈ op.spellings,
        compile (inParens a ++ glyph :: inParens b) = .ok (.binary op left right)) ∧
      compile (inParens a ++ inParens b) = .ok (.binary .mul left right) ∧
      (∀ (f : Function) (name : List Char), lowerCase name = f.name.toList →
        compile (name ++ inParens a) = .ok (.call f left)) ∧
      compile (inParens a ++ ['!']) = .ok (.factorial left) ∧
      compile ('-' :: inParens a) = .ok (.neg left) ∧
      compile ('√' :: inParens a) = .ok (.call .sqrt left) ∧
      compile (inParens a) = .ok left := by
  obtain ⟨first, tree, hfirst, rfl, -⟩ := compile_eq_ok_iff.mp ha
  obtain ⟨second, tree', hsecond, rfl, -⟩ := compile_eq_ok_iff.mp hb
  have hbinary : ∀ op : BinaryOp, (Expr.binary op tree.expr tree'.expr).height ≤ 1000 := by
    intro op
    exact Nat.succ_le_of_lt (Nat.max_lt.mpr ⟨hleft, hright⟩)
  refine ⟨?_, ?_, ?_, ?_, ?_, ?_, ?_⟩
  · intro op glyph hglyph
    have hsymbol := ofSymbol?_of_mem_spellings hglyph
    exact compile_eq_ok_iff.mpr ⟨_, _, hfirst.operator hsecond hsymbol, rfl, hbinary op⟩
  · exact compile_eq_ok_iff.mpr ⟨_, _, hfirst.product hsecond, rfl, hbinary .mul⟩
  · intro f name hname
    exact compile_eq_ok_iff.mpr ⟨_, _, hfirst.call hname, rfl, hleft⟩
  · exact compile_eq_ok_iff.mpr ⟨_, _, hfirst.bang, rfl, hleft⟩
  · exact compile_eq_ok_iff.mpr ⟨_, _, hfirst.sign rfl rfl Phrase.neg, rfl, hleft⟩
  · exact compile_eq_ok_iff.mpr ⟨_, _, hfirst.sign rfl rfl Phrase.root, rfl, hleft⟩
  · exact compile_eq_ok_iff.mpr ⟨_, _, hfirst.group, rfl, Nat.le_of_lt hleft⟩

/-- A quotient, a product and a call of texts with blanks, an unwritten product and a
capital letter. -/
theorem compile_composed_blanks :
    let a := " 2x − .5".toList
    let b := "X ".toList
    let left : Expr := .binary .sub (.binary .mul (.number 2.0) .var) (.number 0.5)
    (compile a = .ok left ∧ compile b = .ok .var ∧ left.height < 1000 ∧
        Expr.var.height < 1000) ∧
      compile (inParens a ++ '÷' :: inParens b) = .ok (.binary .div left .var) ∧
      compile (inParens a ++ inParens b) = .ok (.binary .mul left .var) ∧
      compile (['S', 'i', 'N'] ++ inParens a) = .ok (.call .sin left) := by
  have ha : compile " 2x − .5".toList =
      .ok (.binary .sub (.binary .mul (.number 2.0) .var) (.number 0.5)) := by decide +kernel
  have hb : compile "X ".toList = .ok .var := by decide +kernel
  obtain ⟨hbinary, hproduct, hcall, -⟩ := compile_composed ha hb (by decide) (by decide)
  exact ⟨⟨ha, hb, by decide, by decide⟩, hbinary .div '÷' (by decide), hproduct,
    hcall .sin ['S', 'i', 'N'] (by decide)⟩

end GraphCalc
