/-
Numbers in a text.  A number is read from its mantissa, which goes on as far as
digits and points do, and the power behind it, which is there only when an e is
followed by a digit or by a sign and a digit.
-/
import GraphCalc.Proofs.Lexemes
namespace GraphCalc.Token

/-- A power begins with a digit, or with a sign and a digit. -/
def beginsPower : List Char → Bool
  | c :: rest => c.isDigit || isSign c && rest.head?.any Char.isDigit
  | [] => false

theorem isDigit_of_isSign {c : Char} (h : isSign c = true) : c.isDigit = false := by
  simp only [isSign, Bool.or_eq_true, decide_eq_true_eq] at h
  rcases h with (rfl | rfl) | rfl <;> decide

theorem takeWhile_isDigit_eq_nil (text : List Char) :
    text.takeWhile Char.isDigit = [] ↔ text.head?.any Char.isDigit = false := by
  cases text with
  | nil => simp
  | cons c rest => cases hc : c.isDigit <;> simp [hc]

/-- Behind its mark a power is read with its sign, up to the last digit. -/
theorem exponentLexeme_of_beginsPower {mark c : Char} {rest : List Char}
    (hmark : mark = 'e' ∨ mark = 'E') (h : beginsPower (c :: rest) = true) :
    exponentLexeme (mark :: c :: rest) =
      mark :: if isSign c then c :: rest.takeWhile Char.isDigit
        else (c :: rest).takeWhile Char.isDigit := by
  cases hsign : isSign c with
  | true =>
      rw [beginsPower, isDigit_of_isSign hsign, hsign, Bool.false_or, Bool.true_and] at h
      have hdigits : rest.takeWhile Char.isDigit ≠ [] := by
        rw [ne_eq, takeWhile_isDigit_eq_nil, h]
        exact Bool.noConfusion
      simp [exponentLexeme, hsign, hdigits, hmark]
  | false =>
      rw [beginsPower, hsign, Bool.false_and, Bool.or_false] at h
      simp [exponentLexeme, hsign, h, hmark]

/-- The sign and the digits of a power, up to the first character that is no digit. -/
theorem exists_power_of_beginsPower {rest : List Char} (h : beginsPower rest = true) :
    ∃ power more : List Char, rest = power ++ more ∧
      (∀ c ∈ power, isSign c = true ∨ c.isDigit = true) ∧
        ∀ mark : Char, mark = 'e' ∨ mark = 'E' →
          exponentLexeme (mark :: rest) = mark :: power := by
  cases rest with
  | nil => contradiction
  | cons c rest =>
      have hlexeme : ∀ mark : Char, mark = 'e' ∨ mark = 'E' → _ :=
        fun mark hmark => exponentLexeme_of_beginsPower hmark h
      cases hsign : isSign c with
      | true =>
          simp only [hsign, if_true] at hlexeme
          refine ⟨c :: rest.takeWhile Char.isDigit, rest.dropWhile Char.isDigit, ?_, ?_, hlexeme⟩
          · rw [List.cons_append, List.takeWhile_append_dropWhile]
          · intro other hother
            rcases List.mem_cons.mp hother with rfl | hmem
            · exact Or.inl hsign
            · exact Or.inr (List.mem_takeWhile_imp hmem)
      | false =>
          simp only [hsign, Bool.false_eq_true, if_false] at hlexeme
          refine ⟨(c :: rest).takeWhile Char.isDigit, (c :: rest).dropWhile Char.isDigit, ?_, ?_,
            hlexeme⟩
          · rw [List.takeWhile_append_dropWhile]
          · exact fun other hother => Or.inr (List.mem_takeWhile_imp hother)

theorem exponentLexeme_of_not_beginsPower {rest : List Char} (h : beginsPower rest = false)
    (mark : Char) : exponentLexeme (mark :: rest) = [] := by
  cases rest with
  | nil => simp [exponentLexeme]
  | cons c rest =>
      rw [beginsPower, Bool.or_eq_false_iff] at h
      obtain ⟨hdigit, hsigned⟩ := h
      cases hsign : isSign c with
      | true =>
          rw [hsign, Bool.true_and, ← takeWhile_isDigit_eq_nil] at hsigned
          simp [exponentLexeme, hsign, hsigned]
      | false => simp [exponentLexeme, hsign, hdigit]

/-- A power is behind an e. -/
def marksPower : List Char → Bool
  | 'e' :: rest => beginsPower rest
  | _ => false

/-- A power with a small e is the only one where no capital one begins the text. -/
theorem exponentLexeme_of_not_marksPower {text : List Char} (hupper : ∀ c ∈ text.head?, c ≠ 'E')
    (hpower : marksPower text = false) : exponentLexeme text = [] := by
  cases text with
  | nil => rfl
  | cons c rest =>
      by_cases hmark : c = 'e'
      · rw [hmark] at hpower ⊢
        exact exponentLexeme_of_not_beginsPower hpower 'e'
      · simp [exponentLexeme, hmark, hupper c rfl]

/-- Somewhere a digit or a point is before an e, and a power is behind it. -/
def hasPower : List Char → Bool
  | c :: rest => inMantissa c && marksPower rest || hasPower rest
  | [] => false

theorem hasPower_append {front rest : List Char} (h : ∀ c ∈ front, inMantissa c = false) :
    hasPower (front ++ rest) = hasPower rest := by
  induction front with
  | nil => rfl
  | cons c front ih =>
      obtain ⟨hc, hfront⟩ := List.forall_mem_cons.mp h
      rw [List.cons_append, hasPower, hc, Bool.false_and, Bool.false_or, ih hfront]

theorem marksPower_of_inMantissa {c : Char} (h : inMantissa c = true) (rest : List Char) :
    marksPower (c :: rest) = false := by
  have hne : c ≠ 'e' := fun heq => by rw [heq] at h; contradiction
  simp [marksPower, hne]

/-- Of a mantissa only the last character may stand before a power. -/
theorem hasPower_mantissa {mantissa rest : List Char} (hne : mantissa ≠ [])
    (h : ∀ c ∈ mantissa, inMantissa c = true) :
    hasPower (mantissa ++ rest) = (marksPower rest || hasPower rest) := by
  induction mantissa with
  | nil => contradiction
  | cons c mantissa ih =>
      obtain ⟨hc, hmantissa⟩ := List.forall_mem_cons.mp h
      rw [List.cons_append, hasPower, hc, Bool.true_and]
      cases mantissa with
      | nil => rfl
      | cons next mantissa =>
          rw [ih (List.cons_ne_nil _ _) hmantissa, List.cons_append,
            marksPower_of_inMantissa (hmantissa next List.mem_cons_self), Bool.false_or]

/-- A mantissa goes on up to the first character that is neither a digit nor a point. -/
theorem exists_mantissa {c : Char} (h : inMantissa c = true) (rest : List Char) :
    ∃ mantissa behind : List Char, rest = mantissa ++ behind ∧
      (∀ other ∈ c :: mantissa, inMantissa other = true) ∧
        ∀ other ∈ behind.head?, inMantissa other = false := by
  refine ⟨rest.takeWhile inMantissa, rest.dropWhile inMantissa,
    List.takeWhile_append_dropWhile.symm, ?_, ?_⟩
  · intro other hother
    rcases List.mem_cons.mp hother with rfl | hmem
    · exact h
    · exact List.mem_takeWhile_imp hmem
  · intro other hother
    have hnot := List.head?_dropWhile_not inMantissa rest
    rwa [Option.mem_def.mp hother] at hnot

theorem numberLexeme_eq {mantissa rest : List Char} (h : ∀ c ∈ mantissa, inMantissa c = true)
    (hrest : ∀ c ∈ rest.head?, inMantissa c = false) :
    numberLexeme (mantissa ++ rest) = mantissa ++ exponentLexeme rest := by
  simp only [numberLexeme, takeWhile_front h hrest, List.drop_left]

/-- A number is cut off at the beginning of a text, and is a number token or no
number at all. -/
theorem scan_numberLexeme (found : List Token) {c : Char} {rest lexeme more : List Char}
    (h : inMantissa c = true) (hlexeme : numberLexeme (c :: rest) = c :: lexeme)
    (hrest : rest = lexeme ++ more) :
    (∃ value : Float, scan found 0 (c :: rest) = scan (number value :: found) 0 more) ∨
      ∃ text : List Char, scan found 0 (c :: rest) = .error (.invalidNumber text) := by
  subst hrest
  rw [scan_lexeme found h hlexeme]
  split
  · next d hread => exact Or.inl ⟨d.toDouble false, rfl⟩
  · exact Or.inr ⟨_, rfl⟩

end GraphCalc.Token
