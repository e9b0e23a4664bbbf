/-
Lexemes.  A symbol, a word or a number at the beginning of a text is read as one
token when what stands behind it cannot belong to it, and the reading goes on
there.
-/
import GraphCalc.Proofs.Numerals
import GraphCalc.Token.Lexer
import Mathlib
namespace GraphCalc.Token

/-! ### Characters -/

theorem isDigit_iff {c : Char} : c.isDigit = true ↔ 48 ≤ c.toNat ∧ c.toNat ≤ 57 := by
  simp only [Char.isDigit, Bool.and_eq_true, decide_eq_true_eq, ge_iff_le,
    UInt32.le_iff_toNat_le]
  rfl

theorem isAlpha_iff {c : Char} :
    c.isAlpha = true ↔ 65 ≤ c.toNat ∧ c.toNat ≤ 90 ∨ 97 ≤ c.toNat ∧ c.toNat ≤ 122 := by
  simp only [Char.isAlpha, Char.isUpper, Char.isLower, Bool.or_eq_true, Bool.and_eq_true,
    decide_eq_true_eq, ge_iff_le, UInt32.le_iff_toNat_le]
  rfl

/-- The characters of ASCII that are printed are not blank. -/
theorem isBlank_of_printed {c : Char} (h : 33 ≤ c.toNat) (h' : c.toNat ≤ 126) :
    Text.isBlank c = false := by
  simp only [Text.isBlank, Text.blankRanges, List.any_cons, List.any_nil, Bool.or_false,
    Bool.or_eq_false_iff, Bool.and_eq_false_iff, decide_eq_false_iff_not]
  omega

theorem inMantissa_iff {c : Char} :
    inMantissa c = true ↔ 48 ≤ c.toNat ∧ c.toNat ≤ 57 ∨ c.toNat = 46 := by
  have hpoint : c = '.' ↔ c.toNat = 46 := by
    rw [← Char.toNat_inj]
    rfl
  rw [inMantissa, Bool.or_eq_true, decide_eq_true_eq, isDigit_iff, hpoint]

theorem inMantissa_of_isDigit {c : Char} (h : c.isDigit = true) : inMantissa c = true := by
  rw [inMantissa, h, Bool.true_or]

theorem isDigit_of_not_inMantissa {c : Char} (h : inMantissa c = false) :
    c.isDigit = false := by
  rw [inMantissa, Bool.or_eq_false_iff] at h
  exact h.1

theorem isBlank_of_inMantissa {c : Char} (h : inMantissa c = true) :
    Text.isBlank c = false := by
  have hrange := inMantissa_iff.mp h
  exact isBlank_of_printed (by omega) (by omega)

theorem isBlank_of_isAlpha {c : Char} (h : c.isAlpha = true) : Text.isBlank c = false := by
  have hrange := isAlpha_iff.mp h
  exact isBlank_of_printed (by omega) (by omega)

theorem inMantissa_of_isAlpha {c : Char} (h : c.isAlpha = true) : inMantissa c = false := by
  have hrange := isAlpha_iff.mp h
  rw [Bool.eq_false_iff, ne_eq, inMantissa_iff]
  omega

/-- A symbol is neither a letter, nor part of a number, nor blank. -/
theorem of_ofSymbol? {c : Char} {token : Token} (h : ofSymbol? c = some token) :
    inMantissa c = false ∧ c.isAlpha = false ∧ Text.isBlank c = false := by
  unfold ofSymbol? at h
  split at h
  all_goals first | contradiction | decide

theorem ofSymbol?_of_inMantissa {c : Char} (h : inMantissa c = true) : ofSymbol? c = none := by
  cases hsymbol : ofSymbol? c with
  | none => rfl
  | some token =>
      rw [(of_ofSymbol? hsymbol).1] at h
      contradiction

theorem ofSymbol?_of_isAlpha {c : Char} (h : c.isAlpha = true) : ofSymbol? c = none := by
  cases hsymbol : ofSymbol? c with
  | none => rfl
  | some token =>
      rw [(of_ofSymbol? hsymbol).2.1] at h
      contradiction

/-! ### Reading one lexeme -/

section Scan
variable (found : List Token) (rest : List Char)

theorem scan_symbol {c : Char} {token : Token} (h : ofSymbol? c = some token) :
    scan found 0 (c :: rest) = scan (token :: found) 0 rest := by
  simp [scan, first, h, (of_ofSymbol? h).2.2]

/-- What is behind a lexeme does not go on with digits, points or letters. -/
def EndsLexeme (rest : List Char) : Prop :=
  ∀ c ∈ rest.head?, inMantissa c = false ∧ c.isAlpha = false

theorem endsLexeme_nil : EndsLexeme [] := by
  simp [EndsLexeme]

theorem endsLexeme_symbol {c : Char} {token : Token} (h : ofSymbol? c = some token) :
    EndsLexeme (c :: rest) := by
  intro head hhead
  obtain rfl : c = head := by simpa using hhead
  exact ⟨(of_ofSymbol? h).1, (of_ofSymbol? h).2.1⟩

variable {rest}

/-- The lexeme of a number is read with the minus sign of ASCII, or it is at fault. -/
theorem scan_lexeme {c : Char} {lexeme : List Char} (hhead : inMantissa c = true)
    (hlexeme : numberLexeme (c :: (lexeme ++ rest)) = c :: lexeme) :
    scan found 0 (c :: (lexeme ++ rest)) =
      match Decimal.read? ((c :: lexeme).map fun c => if c = '−' then '-' else c) with
      | some d => scan (number (d.toDouble false) :: found) 0 rest
      | none => .error (.invalidNumber
          ((c :: lexeme).map fun c => if c = '−' then '-' else c)) := by
  simp only [scan, first, ofSymbol?_of_inMantissa hhead, isBlank_of_inMantissa hhead, hhead,
    Bool.false_eq_true, if_false, if_true, hlexeme, List.length_map, List.length_cons,
    Nat.add_sub_cancel]
  cases Decimal.read? ((c :: lexeme).map fun c => if c = '−' then '-' else c) with
  | none => rfl
  | some d =>
      change scan (number (d.toDouble false) :: found) lexeme.length (lexeme ++ rest) = _
      rw [scan_skipped, List.drop_left]

/-- A number is read as soon as its lexeme is known. -/
theorem scan_number {c : Char} {lexeme : List Char} {d : Decimal}
    (hlexeme : numberLexeme (c :: (lexeme ++ rest)) = c :: lexeme)
    (hhead : inMantissa c = true) (hminus : '−' ∉ c :: lexeme)
    (hread : Decimal.read? (c :: lexeme) = some d) :
    scan found 0 (c :: (lexeme ++ rest)) = scan (number (d.toDouble false) :: found) 0 rest := by
  have hmap : (c :: lexeme).map (fun c => if c = '−' then '-' else c) = c :: lexeme := by
    refine (List.map_congr_left (fun other hother => ?_)).trans (List.map_id _)
    have hne : other ≠ '−' := fun heq => hminus (heq ▸ hother)
    simp [hne]
  rw [scan_lexeme found hhead hlexeme, hmap, hread]

/-- An exponent begins with a letter. -/
theorem exponentLexeme_of_not_isAlpha {c : Char} (h : c.isAlpha = false) (rest : List Char) :
    exponentLexeme (c :: rest) = [] := by
  have hlower : c ≠ 'e' := fun heq => by rw [heq] at h; contradiction
  have hupper : c ≠ 'E' := fun heq => by rw [heq] at h; contradiction
  simp [exponentLexeme, hlower, hupper]

theorem exponentLexeme_of_endsLexeme (h : EndsLexeme rest) : exponentLexeme rest = [] := by
  cases rest with
  | nil => rfl
  | cons c rest => exact exponentLexeme_of_not_isAlpha (h c rfl).2 rest

/-- A number without exponent. -/
theorem scan_mantissa {text : List Char} {d : Decimal} (hne : text ≠ [])
    (htext : ∀ c ∈ text, inMantissa c = true) (hread : Decimal.read? text = some d)
    (hrest : EndsLexeme rest) :
    scan found 0 (text ++ rest) = scan (number (d.toDouble false) :: found) 0 rest := by
  obtain ⟨c, lexeme, rfl⟩ := List.exists_cons_of_ne_nil hne
  have hmantissa := takeWhile_front htext (fun c hc => (hrest c hc).1)
  refine scan_number found ?_ (htext c List.mem_cons_self) ?_ hread
  · have htail : exponentLexeme ((c :: (lexeme ++ rest)).drop (c :: lexeme).length) = [] := by
      rw [← List.cons_append, List.drop_left, exponentLexeme_of_endsLexeme hrest]
    rw [List.cons_append] at hmantissa
    simp only [numberLexeme, hmantissa, htail, List.append_nil]
  · intro hmem
    exact absurd (htext _ hmem) (by decide)

/-- A row of digits at the end of a text. -/
theorem scan_digits {digits : List Char} (hne : digits ≠ [])
    (hdigits : ∀ c ∈ digits, c.isDigit = true) :
    scan found 0 digits =
      .ok (number (Decimal.toDouble false ⟨numeralValue digits, 0⟩) :: found).reverse := by
  have hread := Decimal.read?_whole hne hdigits Decimal.endsDigits_nil
  rw [List.append_nil, Decimal.readExponent?_nil] at hread
  have hscan := scan_mantissa found hne (fun c hc => inMantissa_of_isDigit (hdigits c hc)) hread
    endsLexeme_nil
  rw [List.append_nil] at hscan
  rw [hscan]
  rfl

/-- A word is read up to the end of its letters. -/
theorem scan_word (c : Char) (letters : List Char) {token : Token}
    (hletters : ∀ other ∈ c :: letters, other.isAlpha = true) (hrest : EndsLexeme rest)
    (hword : ofLetters? (lowerCase (c :: letters)) = some (lowerCase (c :: letters), token)) :
    scan found 0 (c :: (letters ++ rest)) = scan (token :: found) 0 rest := by
  have hhead : c.isAlpha = true := hletters c List.mem_cons_self
  have hrun := takeWhile_front hletters (fun c hc => (hrest c hc).2)
  rw [List.cons_append] at hrun
  have hlength : (lowerCase (c :: letters)).length - 1 = letters.length := by
    simp [lowerCase]
  have hfirst : first c (letters ++ rest) = .ok (token, letters.length) := by
    simp only [first, ofSymbol?_of_isAlpha hhead, inMantissa_of_isAlpha hhead, hhead,
      letterRun, hrun, hword, hlength, Bool.false_eq_true, if_false, if_true]
  simp only [scan, isBlank_of_isAlpha hhead, Bool.false_eq_true, if_false, hfirst]
  rw [scan_skipped, List.drop_left]

theorem scan_var (hrest : EndsLexeme rest) :
    scan found 0 ('x' :: rest) = scan (var :: found) 0 rest :=
  scan_word found 'x' [] (List.all_eq_true.mp (by decide)) hrest (by decide)

theorem scan_function (f : Function) (hrest : EndsLexeme rest) :
    scan found 0 (f.name.toList ++ rest) = scan (function f :: found) 0 rest := by
  cases f <;> exact scan_word found _ _ (List.all_eq_true.mp (by decide)) hrest (by decide)

end Scan

/-! ### Unwritten products -/

/-- No product stands unwritten between two neighbours. -/
def Unmultiplied (tokens : List Token) : Prop :=
  tokens.IsChain (fun left right => left.multiplies right = false)

theorem withProducts_eq_self {tokens : List Token} (h : Unmultiplied tokens) :
    withProducts tokens = tokens := by
  induction tokens with
  | nil => rfl
  | cons left tokens ih =>
      cases tokens with
      | nil => rfl
      | cons right rest =>
          obtain ⟨hpair, hrest⟩ := List.isChain_cons_cons.mp h
          rw [withProducts, hpair, ih hrest]
          rfl

theorem unmultiplied_cons {left : Token} {rest : List Token}
    (hleft : left.endsValue = false ∨ ∀ token ∈ rest.head?, token.beginsValue = false)
    (hrest : Unmultiplied rest) : Unmultiplied (left :: rest) := by
  cases rest with
  | nil => exact List.isChain_singleton left
  | cons right rest =>
      refine List.isChain_cons_cons.mpr ⟨?_, hrest⟩
      rcases hleft with hends | hbegins
      · simp [multiplies, hends]
      · simp [multiplies, hbegins right rfl]

theorem head?_withProducts (tokens : List Token) :
    (withProducts tokens).head? = tokens.head? := by
  rcases tokens with _ | ⟨left, _ | ⟨right, rest⟩⟩
  · rfl
  · rfl
  · rw [withProducts]
    split <;> rfl

theorem getLast?_withProducts (tokens : List Token) :
    (withProducts tokens).getLast? = tokens.getLast? := by
  induction tokens with
  | nil => rfl
  | cons left tokens ih =>
      cases tokens with
      | nil => rfl
      | cons right rest =>
          have hlast : (withProducts (right :: rest)).getLast? =
              some (rest.getLast?.getD right) := ih.trans List.getLast?_cons
          rw [List.getLast?_cons_cons, ← ih, withProducts]
          split
          · simp [List.getLast?_cons, hlast]
          · simp [List.getLast?_cons, hlast]

theorem count_withProducts {token : Token} (h : token ≠ times) (tokens : List Token) :
    (withProducts tokens).count token = tokens.count token := by
  induction tokens with
  | nil => rfl
  | cons left tokens ih =>
      cases tokens with
      | nil => rfl
      | cons right rest =>
          rw [List.count_cons, ← ih, withProducts]
          split
          · rw [List.count_cons, List.count_cons_of_ne h.symm]
          · rw [List.count_cons]

end GraphCalc.Token
