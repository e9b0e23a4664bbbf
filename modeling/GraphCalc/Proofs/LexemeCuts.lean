/-
How a text is cut into lexemes.  Between blanks every character belongs to one lexeme,
and each of them is the longest that begins at its place.
-/
import GraphCalc.Proofs.Literals
import GraphCalc.Proofs.NearestDoubles
import GraphCalc.Proofs.UnitTokens
namespace GraphCalc.Token

/-! ### Lexemes -/

/-- The characters that are a token by themselves. -/
def glyphs : Token → List Char
  | leftParen => ['(']
  | rightParen => [')']
  | plus => ['+']
  | minus => ['-', '−', '–', '—']
  | times => ['*', '×', '·']
  | divide => ['/', '÷']
  | power => ['^']
  | bang => ['!']
  | pi => ['π']
  | root => ['√']
  | number _ | euler | var | function _ => []

/-- The word for a token, in lower case. -/
def word? : Token → Option (List Char)
  | function f => some f.name.toList
  | pi => some ['p', 'i']
  | var => some ['x']
  | euler => some ['e']
  | _ => none

/-- The texts of a token: its glyphs, its word in any case, and for a number the literals
that are nearest to it. -/
inductive IsLexeme : List Char → Token → Prop where
  | glyph {c : Char} {token : Token} : c ∈ token.glyphs → IsLexeme [c] token
  | word {letters : List Char} {token : Token} :
      token.word? = some (lowerCase letters) → IsLexeme letters token
  | literal {literal : Literal} {value : Float} :
      Double.negative value = false → Double.NearestEven literal.value (Double.pattern value) →
        IsLexeme literal.text (number value)

/-- The lexeme of a token, and no longer one begins at its place. -/
structure Longest (lexeme rest : List Char) (token : Token) : Prop where
  isLexeme : IsLexeme lexeme token
  longest : ∀ (other : Token) (text : List Char), IsLexeme text other →
    text <+: lexeme ++ rest → text.length ≤ lexeme.length
  /-- the constant e does not stand before the letters x and p -/
  euler : token = euler → ∀ c ∈ rest.head?, c.toLower ≠ 'x' ∧ c.toLower ≠ 'p'

theorem mem_glyphs {c : Char} {token : Token} : c ∈ token.glyphs ↔ ofSymbol? c = some token := by
  constructor
  · intro h
    have hall : token.glyphs.all (fun c => ofSymbol? c = some token) = true := by
      cases token with
      | number _ | euler | var | function _ => rfl
      | _ => decide
    simpa using List.all_eq_true.mp hall c h
  · intro h
    unfold ofSymbol? at h
    split at h
    all_goals first
      | contradiction
      | exact Option.some.inj h ▸ by decide

theorem mem_words {letters : List Char} {token : Token} :
    (letters, token) ∈ words ↔ token.word? = some letters := by
  constructor
  · have hall : ∀ word ∈ words, word.2.word? = some word.1 := by decide
    exact fun h => hall _ h
  · intro h
    cases token with
    | function f =>
        obtain rfl : f.name.toList = letters := Option.some.inj h
        cases f <;> decide
    | pi | var | euler =>
        obtain rfl := Option.some.inj h
        decide
    | _ => contradiction

/-- Words have letters only. -/
theorem isAlpha_of_word {letters : List Char} {token : Token}
    (h : token.word? = some (lowerCase letters)) :
    letters ≠ [] ∧ ∀ c ∈ letters, c.isAlpha = true := by
  have hall : words.all (fun word => !word.1.isEmpty && word.1.all Char.isAlpha) = true := by
    decide
  have hword := List.all_eq_true.mp hall _ (mem_words.mpr h)
  simpa [lowerCase] using hword

/-- Every lexeme begins with a character of its own kind: a symbol, a letter, or a digit or
point. -/
theorem IsLexeme.head_cases {text : List Char} {token : Token} (h : IsLexeme text token) :
    ∃ (c : Char) (rest : List Char), text = c :: rest ∧
      (rest = [] ∧ ofSymbol? c = some token ∨
        c.isAlpha = true ∧ token.word? = some (lowerCase text) ∨
        inMantissa c = true ∧ ∃ literal : Literal, text = literal.text) := by
  cases h with
  | @glyph c _ hglyph => exact ⟨c, [], rfl, Or.inl ⟨rfl, mem_glyphs.mp hglyph⟩⟩
  | word hword =>
      obtain ⟨hne, halpha⟩ := isAlpha_of_word hword
      obtain ⟨c, rest, rfl⟩ := List.exists_cons_of_ne_nil hne
      exact ⟨c, rest, rfl, Or.inr (Or.inl ⟨halpha c List.mem_cons_self, hword⟩)⟩
  | @literal literal value _ _ =>
      obtain ⟨c, rest, htext⟩ := List.exists_cons_of_ne_nil literal.text_ne_nil
      have hhead := literal.inMantissa_head c (by rw [htext]; rfl)
      exact ⟨c, rest, htext, Or.inr (Or.inr ⟨hhead, literal, rfl⟩)⟩

theorem IsLexeme.length_pos {text : List Char} {token : Token} (h : IsLexeme text token) :
    0 < text.length := by
  obtain ⟨c, rest, rfl, -⟩ := h.head_cases
  exact Nat.succ_pos _

/-! ### The first lexeme of a text -/

section Longest
variable {c : Char} {rest : List Char} {token : Token}

/-- A symbol is a lexeme of one character. -/
theorem longest_symbol (h : ofSymbol? c = some token) : Longest [c] rest token := by
  obtain ⟨hmantissa, halpha, -⟩ := of_ofSymbol? h
  refine ⟨IsLexeme.glyph (mem_glyphs.mpr h), ?_, ?_⟩
  · intro other text htext hfront
    obtain ⟨head, more, rfl, hcases⟩ := htext.head_cases
    obtain ⟨rfl, -⟩ := List.cons_prefix_cons.mp hfront
    rcases hcases with ⟨rfl, -⟩ | ⟨hletter, -⟩ | ⟨hdigit, -⟩
    · exact Nat.le_refl 1
    · rw [halpha] at hletter
      contradiction
    · rw [hmantissa] at hdigit
      contradiction
  · rintro rfl
    exact absurd rfl (Scientific.ofSymbol?_ne h).1

/-- Of the words that a run of letters begins with the longest is found. -/
theorem longest_ofLetters? {letters : List Char} {word : List Char × Token}
    (h : ofLetters? letters = some word) {other : List Char × Token} (hother : other ∈ words)
    (hfront : other.1 <+: letters) : other.1.length ≤ word.1.length := by
  have hsorted : words.Pairwise (fun left right => right.1.length ≤ left.1.length) := by decide
  obtain ⟨hbegins, before, after, hwords, hbefore⟩ := List.find?_eq_some_iff_append.mp h
  rw [hwords, List.pairwise_append, List.pairwise_cons] at hsorted
  rw [hwords, List.mem_append, List.mem_cons] at hother
  rcases hother with hmem | rfl | hmem
  · -- only the constant e is passed over where it is written
    have hnot := hbefore other hmem
    rw [beginsWith, List.isPrefixOf_iff_prefix.mpr hfront, Bool.true_and, Bool.not_not,
      Bool.and_eq_true] at hnot
    have heuler : other.2 = euler := eq_of_beq hnot.1
    have hone : other.1 = ['e'] := by
      have hin : (other.1, other.2) ∈ words := by
        rw [hwords]
        exact List.mem_append_left _ hmem
      rw [heuler] at hin
      exact (Option.some.inj (mem_words.mp hin)).symm
    have hword : word.1 ≠ [] := by
      have hall : ∀ word ∈ words, word.1 ≠ [] := by decide
      exact hall word (List.mem_of_find?_eq_some h)
    rw [hone]
    exact List.length_pos_of_ne_nil hword
  · exact Nat.le_refl _
  · exact hsorted.2.1.1 other hmem

/-- No x and no p is behind the constant e. -/
theorem toLower_of_beginsWith {letters behind : List Char} {word : List Char × Token}
    (heuler : word.2 = euler) (hletters : letters.drop 1 = letterRun behind)
    (h : beginsWith letters word = true) :
    ∀ c ∈ behind.head?, c.toLower ≠ 'x' ∧ c.toLower ≠ 'p' := by
  intro c hc
  obtain ⟨more, rfl⟩ := List.head?_eq_some_iff.mp hc
  cases halpha : c.isAlpha with
  | true =>
      rw [beginsWith, Bool.and_eq_true] at h
      simpa [heuler, hletters, letterRun, lowerCase, halpha] using h.2
  | false =>
      rw [← Char.isAlpha_toLower_eq_isAlpha] at halpha
      constructor
      all_goals
        intro heq
        rw [heq] at halpha
        contradiction

/-- A word is cut off with its letters. -/
theorem exists_longest_word {word : List Char × Token}
    (h : ofLetters? (letterRun (c :: rest)) = some word) (halpha : c.isAlpha = true) :
    ∃ lexeme behind : List Char, c :: rest = lexeme ++ behind ∧
      lexeme.length = word.1.length ∧ Longest lexeme behind word.2 := by
  have hmem : word ∈ words := List.mem_of_find?_eq_some h
  have hbegins := List.find?_some h
  have hfront : word.1 <+: letterRun (c :: rest) := by
    rw [beginsWith, Bool.and_eq_true] at hbegins
    exact List.isPrefixOf_iff_prefix.mp hbegins.1
  obtain ⟨lexeme, hlexeme, hlower⟩ := List.prefix_map_iff.mp hfront
  have hletters : ∀ other ∈ lexeme, other.isAlpha = true :=
    fun other hother => List.mem_takeWhile_imp (hlexeme.subset hother)
  obtain ⟨behind, hbehind⟩ := hlexeme.trans (List.takeWhile_prefix Char.isAlpha)
  have hword : word.2.word? = some (lowerCase lexeme) := by
    rw [lowerCase, ← hlower]
    exact mem_words.mp hmem
  refine ⟨lexeme, behind, hbehind.symm, ?_, IsLexeme.word hword, ?_, ?_⟩
  · rw [hlower, List.length_map]
  · intro other text htext hother
    rw [hbehind] at hother
    obtain ⟨head, more, heq, hcases⟩ := htext.head_cases
    obtain ⟨rfl, -⟩ := List.cons_prefix_cons.mp (heq ▸ hother)
    rcases hcases with ⟨-, hsymbol⟩ | ⟨-, hother'⟩ | ⟨hdigit, -⟩
    · rw [ofSymbol?_of_isAlpha halpha] at hsymbol
      contradiction
    · have hrun : lowerCase text <+: letterRun (head :: rest) := by
        obtain ⟨after, hafter⟩ := hother
        rw [← hafter, letterRun, List.takeWhile_append_of_pos (isAlpha_of_word hother').2]
        exact (List.prefix_append _ _).map _
      have hlength := longest_ofLetters? h (mem_words.mpr hother') hrun
      rwa [hlower, List.length_map, lowerCase, List.length_map] at hlength
    · rw [inMantissa_of_isAlpha halpha] at hdigit
      contradiction
  · intro heuler
    refine toLower_of_beginsWith heuler ?_ hbegins
    have hone : lexeme.length = 1 := by
      rw [heuler] at hword
      have hlength := congrArg List.length (Option.some.inj hword)
      rw [lowerCase, List.length_map] at hlength
      exact hlength.symm
    rw [← hbehind, letterRun, List.takeWhile_append_of_pos hletters, lowerCase, List.map_append,
      List.drop_left' (by rw [List.length_map, hone])]
    rfl

/-- A number is cut off with its digits. -/
theorem exists_longest_number {d : Decimal}
    (h : Decimal.read? ((numberLexeme (c :: rest)).map asciiMinus) = some d)
    (hmantissa : inMantissa c = true) :
    ∃ behind : List Char, c :: rest = numberLexeme (c :: rest) ++ behind ∧
      Longest (numberLexeme (c :: rest)) behind (number (d.toDouble false)) := by
  obtain ⟨literal, hliteral, hvalue⟩ := exists_literal hmantissa h
  obtain ⟨behind, hbehind⟩ := numberLexeme_begins (c :: rest)
  have hle := Decimal.pattern_le_top d
  have hnearest : Double.NearestEven literal.value (Double.pattern (d.toDouble false)) := by
    rw [hvalue, Decimal.toDouble, Double.pattern_ofPattern false hle]
    exact Double.nearestEven_pattern d
  refine ⟨behind, hbehind.symm, ?_, ?_, fun heuler => Token.noConfusion heuler⟩
  · rw [← hliteral]
    exact IsLexeme.literal (Double.negative_ofPattern false hle) hnearest
  · intro other text htext hother
    rw [hbehind] at hother
    obtain ⟨head, more, heq, hcases⟩ := htext.head_cases
    obtain ⟨rfl, -⟩ := List.cons_prefix_cons.mp (heq ▸ hother)
    rcases hcases with ⟨-, hsymbol⟩ | ⟨hletter, -⟩ | ⟨-, literal', rfl⟩
    · rw [ofSymbol?_of_inMantissa hmantissa] at hsymbol
      contradiction
    · rw [inMantissa_of_isAlpha hletter] at hmantissa
      contradiction
    · exact literal'.length_le_numberLexeme hother

/-- The first token of a text is cut off with its lexeme. -/
theorem exists_longest_of_first {more : ℕ} (h : first c rest = .ok (token, more)) :
    ∃ lexeme behind : List Char, c :: rest = lexeme ++ behind ∧ lexeme.length = more + 1 ∧
      Longest lexeme behind token := by
  simp only [first] at h
  split at h
  · next other hsymbol =>
      obtain ⟨rfl, rfl⟩ := Prod.mk.inj (Except.ok.inj h)
      exact ⟨[c], rest, rfl, rfl, longest_symbol hsymbol⟩
  · split at h
    · next hmantissa =>
        split at h
        · next d hread =>
            obtain ⟨rfl, rfl⟩ := Prod.mk.inj (Except.ok.inj h)
            obtain ⟨behind, hbehind, hlongest⟩ := exists_longest_number hread hmantissa
            refine ⟨_, behind, hbehind, ?_, hlongest⟩
            rw [List.length_map, Nat.sub_add_cancel hlongest.isLexeme.length_pos]
        · contradiction
    · split at h
      · next halpha =>
          split at h
          · next word hword =>
              obtain ⟨rfl, rfl⟩ := Prod.mk.inj (Except.ok.inj h)
              obtain ⟨lexeme, behind, hbehind, hlength, hlongest⟩ :=
                exists_longest_word hword halpha
              refine ⟨lexeme, behind, hbehind, ?_, hlongest⟩
              rw [← hlength, Nat.sub_add_cancel hlongest.isLexeme.length_pos]
          · contradiction
      · contradiction

end Longest

/-! ### The whole text -/

/-- A token with its lexeme and the blanks behind it. -/
structure Piece where
  token : Token
  lexeme : List Char
  blanks : List Char

def Piece.text (piece : Piece) : List Char :=
  piece.lexeme ++ piece.blanks

/-- Every lexeme is the longest that begins at its place in the text of the pieces, and only
blanks are behind it. -/
def Cut : List Piece → Prop
  | [] => True
  | piece :: rest =>
      Longest piece.lexeme (piece.blanks ++ rest.flatMap Piece.text) piece.token ∧
        (∀ c ∈ piece.blanks, Text.isBlank c = true) ∧ Cut rest

theorem exists_pieces_of_scan {found : List Token} {skipped : ℕ} {text : List Char}
    {tokens : List Token} (h : scan found skipped text = .ok tokens) :
    ∃ (blanks : List Char) (pieces : List Piece),
      text.drop skipped = blanks ++ pieces.flatMap Piece.text ∧
        (∀ c ∈ blanks, Text.isBlank c = true) ∧ Cut pieces ∧
          tokens = found.reverse ++ pieces.map Piece.token := by
  induction text generalizing found skipped with
  | nil =>
      rw [scan] at h
      refine ⟨[], [], List.drop_nil, List.forall_mem_nil _, trivial, ?_⟩
      rw [← Except.ok.inj h, List.map_nil, List.append_nil]
  | cons c rest ih =>
      cases skipped with
      | succ skipped => exact ih h
      | zero =>
          rw [scan] at h
          split at h
          · next hblank =>
              obtain ⟨blanks, pieces, hrest, hblanks, hcut, htokens⟩ := ih h
              refine ⟨c :: blanks, pieces, ?_, List.forall_mem_cons.mpr ⟨hblank, hblanks⟩, hcut,
                htokens⟩
              rw [List.drop_zero, List.cons_append, ← hrest, List.drop_zero]
          · split at h
            · next token more hfirst =>
                obtain ⟨lexeme, behind, htext, hlength, hlongest⟩ := exists_longest_of_first hfirst
                obtain ⟨blanks, pieces, hrest, hblanks, hcut, htokens⟩ := ih h
                have hbehind : behind = blanks ++ pieces.flatMap Piece.text := by
                  rw [← hrest, ← List.drop_succ_cons (a := c), htext, ← hlength, List.drop_left]
                refine ⟨[], ⟨token, lexeme, blanks⟩ :: pieces, ?_, List.forall_mem_nil _,
                  ⟨hbehind ▸ hlongest, hblanks, hcut⟩, ?_⟩
                · rw [List.drop_zero, htext, hbehind, List.nil_append, List.flatMap_cons,
                    Piece.text, List.append_assoc]
                · rw [htokens, List.reverse_cons, List.append_assoc]
                  rfl
            · contradiction

/-- A text that is read is a row of lexemes with blanks between them.  Each lexeme is the
longest that begins at its place, and the tokens of the text are theirs, with the unwritten
products. -/
theorem exists_pieces_of_tokenize {text : List Char} {tokens : List Token}
    (h : tokenize text = .ok tokens) :
    ∃ (blanks : List Char) (pieces : List Piece),
      text = blanks ++ pieces.flatMap Piece.text ∧
        (∀ c ∈ blanks, Text.isBlank c = true) ∧ Cut pieces ∧
          tokens = withProducts (pieces.map Piece.token) := by
  rw [tokenize] at h
  cases hscan : written text with
  | error e =>
      rw [hscan] at h
      contradiction
  | ok raw =>
      rw [hscan] at h
      obtain ⟨blanks, pieces, htext, hblanks, hcut, rfl⟩ := exists_pieces_of_scan hscan
      exact ⟨blanks, pieces, htext, hblanks, hcut, (Except.ok.inj h).symm⟩

/-- An e of a power, an e of a name, and the constant. -/
theorem exists_pieces_of_tokenize_euler :
    tokenize " 1.5E−3exp(2 e X)".toList =
        .ok [number 0.0015, times, function .exp, leftParen, number 2, times, euler, times, var,
          rightParen] ∧
      ∃ (blanks : List Char) (pieces : List Piece),
        " 1.5E−3exp(2 e X)".toList = blanks ++ pieces.flatMap Piece.text ∧
          (∀ c ∈ blanks, Text.isBlank c = true) ∧ Cut pieces ∧
            [number 0.0015, times, function .exp, leftParen, number 2, times, euler, times, var,
              rightParen] = withProducts (pieces.map Piece.token) := by
  have hread : tokenize " 1.5E−3exp(2 e X)".toList =
      .ok [number 0.0015, times, function .exp, leftParen, number 2, times, euler, times, var,
        rightParen] := by decide +kernel
  exact ⟨hread, exists_pieces_of_tokenize hread⟩

end GraphCalc.Token
