/-
The operands of the standard calculator.  An operand is a numeral, an optional minus
sign and digits with at most one point behind the first of them, that is read as a
finite number.  Typed digits and points, the sign key and the backspace key make
operands of operands, and the text of a finite result is one.
-/
import GraphCalc.Proofs.NumberText
namespace GraphCalc

/-! ### The number that digits stand for -/

namespace Decimal

/-- The number that digits with points among them stand for.  Only the first point
counts: the digits behind it are decimals. -/
def ofDigits (text : List Char) : Decimal :=
  ⟨numeralValue (text.filter Char.isDigit),
    -((text.dropWhile (fun c => c != '.')).countP Char.isDigit : ℕ)⟩

theorem ne_point_of_isDigit {c : Char} (h : c.isDigit = true) : c ≠ '.' := by
  rintro rfl
  contradiction

theorem dropWhile_ne_point {text : List Char} (h : '.' ∉ text) :
    text.dropWhile (fun c => c != '.') = [] := by
  rw [List.dropWhile_eq_nil_iff]
  intro c hc
  simpa using fun heq : c = '.' => h (heq ▸ hc)

theorem dropWhile_concat_of_mem {text : List Char} (h : '.' ∈ text) (c : Char) :
    (text ++ [c]).dropWhile (fun c => c != '.') =
      text.dropWhile (fun c => c != '.') ++ [c] := by
  have hne : text.dropWhile (fun c => c != '.') ≠ [] := by
    rw [ne_eq, List.dropWhile_eq_nil_iff]
    intro hall
    simpa using hall '.' h
  rw [List.dropWhile_append, if_neg (by simpa using hne)]

theorem numeralValue_concat (digits : List Char) (c : Char) :
    numeralValue (digits ++ [c]) = 10 * numeralValue digits + (c.toNat - '0'.toNat) := by
  rw [numeralValue, List.foldl_append]
  rfl

theorem numeralValue_lt {digits : List Char} (h : ∀ c ∈ digits, c.isDigit = true) :
    numeralValue digits < 10 ^ digits.length := by
  induction digits using List.reverseRecOn with
  | nil => decide
  | append_singleton digits c ih =>
      have hdigit := Token.isDigit_iff.mp (h c (by simp))
      have hzero : '0'.toNat = 48 := rfl
      have hrest := ih (fun other hother => h other (by simp [hother]))
      rw [numeralValue_concat, List.length_append, List.length_singleton, Nat.pow_succ]
      omega

/-- A point behind the digits changes nothing. -/
theorem ofDigits_concat_point (text : List Char) : ofDigits (text ++ ['.']) = ofDigits text := by
  have hdigit : '.'.isDigit = false := by decide
  by_cases hpoint : '.' ∈ text
  · simp [ofDigits, dropWhile_concat_of_mem hpoint, hdigit]
  · have hdrop : (text ++ ['.']).dropWhile (fun c => c != '.') = ['.'] := by
      rw [List.dropWhile_append, if_pos (by simp [dropWhile_ne_point hpoint])]
      rfl
    simp [ofDigits, hdrop, dropWhile_ne_point hpoint, hdigit]

/-- A digit behind the others is a unit, or one more decimal. -/
theorem ofDigits_concat_digit (text : List Char) {c : Char} (h : c.isDigit = true) :
    ofDigits (text ++ [c]) = ⟨10 * (ofDigits text).coefficient + (c.toNat - '0'.toNat),
      (ofDigits text).exponent - if '.' ∈ text then 1 else 0⟩ := by
  have hpoint := ne_point_of_isDigit h
  have hfilter : (text ++ [c]).filter Char.isDigit = text.filter Char.isDigit ++ [c] := by
    rw [List.filter_append, List.filter_singleton, h]
    rfl
  rw [ofDigits, hfilter, numeralValue_concat]
  by_cases hmem : '.' ∈ text
  · rw [dropWhile_concat_of_mem hmem, List.countP_append, List.countP_singleton, h, if_pos hmem,
      ofDigits]
    congr 1
    simp only [if_true]
    omega
  · have hmem' : '.' ∉ text ++ [c] := by simpa [hmem] using Ne.symm hpoint
    rw [dropWhile_ne_point hmem', if_neg hmem, ofDigits, dropWhile_ne_point hmem, sub_zero]

theorem exponent_ofDigits_nonpos (text : List Char) : (ofDigits text).exponent ≤ 0 := by
  simp [ofDigits]

/-- A longer row of digits stands for no smaller number. -/
theorem value_ofDigits_le_concat (text : List Char) {c : Char}
    (h : c.isDigit = true ∨ c = '.') :
    (ofDigits text).value ≤ (ofDigits (text ++ [c])).value := by
  rcases h with hdigit | rfl
  · obtain ⟨digit, hdigit'⟩ : ∃ digit : ℕ, digit = c.toNat - '0'.toNat := ⟨_, rfl⟩
    rw [ofDigits_concat_digit text hdigit, value, value, ← hdigit']
    have hpow : (0 : ℚ) < 10 ^ (ofDigits text).exponent := by positivity
    have hcoefficient : (0 : ℚ) ≤ (ofDigits text).coefficient := by positivity
    have hadded : (0 : ℚ) ≤ digit := by positivity
    push_cast
    split
    · rw [zpow_sub_one₀ (by norm_num)]
      nlinarith
    · rw [sub_zero]
      nlinarith
  · rw [ofDigits_concat_point]

/-- The number has no more places before the point than there are digits. -/
theorem value_ofDigits_lt (text : List Char) :
    (ofDigits text).value < 10 ^ text.countP Char.isDigit := by
  have hlt : numeralValue (text.filter Char.isDigit) < 10 ^ text.countP Char.isDigit := by
    rw [List.countP_eq_length_filter]
    exact numeralValue_lt (fun c hc => (List.mem_filter.mp hc).2)
  have hpow : (10 : ℚ) ^ (ofDigits text).exponent ≤ 1 :=
    zpow_le_one_of_nonpos₀ (by norm_num) (exponent_ofDigits_nonpos text)
  calc (ofDigits text).value ≤ (ofDigits text).coefficient :=
        mul_le_of_le_one_right (by positivity) hpow
    _ < 10 ^ text.countP Char.isDigit := by exact_mod_cast hlt

/-- A row of at most 300 digits stands for a number in the range of doubles. -/
theorem pattern_ofDigits_lt {text : List Char} (h : text.countP Char.isDigit ≤ 300) :
    (ofDigits text).pattern Layout.double < Layout.double.top := by
  have hgreatest := Layout.double.le_magnitude_of (Layout.double.top - 1) (10 ^ 300)
    (by decide : 0 < 1) (by decide +kernel)
  rw [Nat.cast_one, div_one, Nat.cast_pow, Nat.cast_ofNat] at hgreatest
  have hvalue : (ofDigits text).value ≤ 10 ^ 300 :=
    (value_ofDigits_lt text).le.trans (pow_le_pow_right₀ (by norm_num) h)
  exact Nat.lt_of_le_pred (by decide) (pattern_le (hvalue.trans hgreatest))

end Decimal

/-! ### Magnitudes -/

/-- The texts of magnitudes: digits, and then at most one point with more digits
behind it. -/
inductive IsMagnitude : List Char → Prop where
  | whole {digits : List Char} :
      digits ≠ [] → (∀ c ∈ digits, c.isDigit = true) → IsMagnitude digits
  | pointed {digits decimals : List Char} :
      digits ≠ [] → (∀ c ∈ digits, c.isDigit = true) →
        (∀ c ∈ decimals, c.isDigit = true) → IsMagnitude (digits ++ '.' :: decimals)

namespace IsMagnitude

theorem ne_point_of_digits {digits : List Char} (h : ∀ c ∈ digits, c.isDigit = true) :
    '.' ∉ digits :=
  fun hmem => absurd (h '.' hmem) (by decide)

theorem filter_digits {digits : List Char} (h : ∀ c ∈ digits, c.isDigit = true) :
    digits.filter Char.isDigit = digits :=
  List.filter_eq_self.mpr h

variable {text : List Char} (h : IsMagnitude text)
include h

/-- A magnitude begins with a digit. -/
theorem exists_head : ∃ (c : Char) (rest : List Char), text = c :: rest ∧ c.isDigit = true := by
  cases h with
  | whole hne hdigits =>
      obtain ⟨c, rest, rfl⟩ := List.exists_cons_of_ne_nil hne
      exact ⟨c, rest, rfl, hdigits c List.mem_cons_self⟩
  | pointed hne hdigits hdecimals =>
      obtain ⟨c, rest, rfl⟩ := List.exists_cons_of_ne_nil hne
      exact ⟨c, _, rfl, hdigits c List.mem_cons_self⟩

theorem isDigit_or_point_of_mem {c : Char} (hc : c ∈ text) : c.isDigit = true ∨ c = '.' := by
  cases h with
  | whole hne hdigits => exact Or.inl (hdigits c hc)
  | pointed hne hdigits hdecimals =>
      rcases List.mem_append.mp hc with hmem | hmem
      · exact Or.inl (hdigits c hmem)
      · rcases List.mem_cons.mp hmem with rfl | hmem
        · exact Or.inr rfl
        · exact Or.inl (hdecimals c hmem)

/-- A magnitude is read as the number that its digits stand for. -/
theorem read? : Decimal.read? text = some (Decimal.ofDigits text) := by
  cases h with
  | whole hne hdigits =>
      have hread := Decimal.read?_whole hne hdigits Decimal.endsDigits_nil
      rw [List.append_nil, Decimal.readExponent?_nil] at hread
      rw [hread, Decimal.ofDigits, filter_digits hdigits,
        Decimal.dropWhile_ne_point (ne_point_of_digits hdigits)]
      rfl
  | @pointed digits decimals hne hdigits hdecimals =>
      have hread := Decimal.read?_point hne hdigits hdecimals Decimal.endsDigits_nil
      rw [List.append_nil, Decimal.readExponent?_nil] at hread
      have hpoint : '.'.isDigit = false := by decide
      have hfilter : (digits ++ '.' :: decimals).filter Char.isDigit = digits ++ decimals := by
        rw [List.filter_append, List.filter_cons, hpoint, filter_digits hdigits,
          filter_digits hdecimals]
        rfl
      have hdrop : (digits ++ '.' :: decimals).dropWhile (fun c => c != '.') =
          '.' :: decimals := by
        refine dropWhile_front (fun c hc => ?_) (by simp)
        simpa using fun heq : c = '.' => ne_point_of_digits hdigits (heq ▸ hc)
      have hcount : ('.' :: decimals).countP Char.isDigit = decimals.length := by
        rw [List.countP_cons_of_neg (by simp [hpoint]), List.countP_eq_length.mpr hdecimals]
      rw [hread, Decimal.ofDigits, hfilter, hdrop, hcount]
      simp

theorem concat_digit {c : Char} (hc : c.isDigit = true) : IsMagnitude (text ++ [c]) := by
  have hconcat : ∀ {digits : List Char}, (∀ c ∈ digits, c.isDigit = true) →
      ∀ other ∈ digits ++ [c], other.isDigit = true := by
    intro digits hdigits other hother
    rcases List.mem_append.mp hother with hmem | hmem
    · exact hdigits other hmem
    · rwa [List.mem_singleton.mp hmem]
  cases h with
  | whole hne hdigits => exact .whole (by simp) (hconcat hdigits)
  | @pointed digits decimals hne hdigits hdecimals =>
      rw [List.append_assoc, List.cons_append]
      exact .pointed hne hdigits (hconcat hdecimals)

theorem concat_point (hpoint : '.' ∉ text) : IsMagnitude (text ++ ['.']) := by
  cases h with
  | whole hne hdigits => exact .pointed hne hdigits (List.forall_mem_nil _)
  | pointed hne hdigits hdecimals => simp at hpoint

/-- Without its last character a magnitude is empty or a magnitude. -/
theorem dropLast : text.dropLast = [] ∨ IsMagnitude text.dropLast := by
  cases h with
  | whole hne hdigits =>
      by_cases hempty : text.dropLast = []
      · exact Or.inl hempty
      · exact Or.inr (.whole hempty (fun c hc => hdigits c (List.mem_of_mem_dropLast hc)))
  | @pointed digits decimals hne hdigits hdecimals =>
      refine Or.inr ?_
      rcases List.eq_nil_or_concat decimals with rfl | ⟨front, last, rfl⟩
      · rw [List.dropLast_concat]
        exact .whole hne hdigits
      · rw [List.concat_eq_append, ← List.cons_append, ← List.append_assoc, List.dropLast_concat]
        exact .pointed hne hdigits (fun c hc => hdecimals c (by simp [hc]))

theorem dropLast_signed (negative : Bool) :
    (signed negative text).dropLast = signed negative text.dropLast := by
  obtain ⟨c, rest, rfl, -⟩ := h.exists_head
  cases negative <;> rfl

/-- The last character only adds to the number. -/
theorem pattern_dropLast_le :
    (Decimal.ofDigits text.dropLast).pattern Layout.double ≤
      (Decimal.ofDigits text).pattern Layout.double := by
  rcases List.eq_nil_or_concat text with rfl | ⟨front, last, rfl⟩
  · exact Nat.le_refl _
  · rw [List.concat_eq_append] at h ⊢
    rw [List.dropLast_concat]
    exact Decimal.pattern_mono (Decimal.value_ofDigits_le_concat front
      (h.isDigit_or_point_of_mem (by simp)))

end IsMagnitude

theorem isMagnitude_positional (d : Decimal) : IsMagnitude d.positional := by
  by_cases hwhole : 0 ≤ d.exponent
  · rw [Decimal.positional_of_nonneg hwhole]
    exact .whole (numeral_ne_nil _) (fun c => isDigit_of_mem_numeral)
  · obtain ⟨whole, fraction, heq, hne, hdigits, hfraction, -⟩ :=
      Decimal.positional_of_neg (Int.lt_of_not_ge hwhole)
    rw [heq]
    exact .pointed hne hdigits hfraction

/-! ### Operands -/

/-- The texts of numbers: a magnitude that may have a minus sign. -/
inductive IsNumeral : List Char → Prop where
  | signed (negative : Bool) {magnitude : List Char} :
      IsMagnitude magnitude → IsNumeral (signed negative magnitude)

/-- An operand: the text of a number, which is read as a finite one. -/
structure IsOperand (text : List Char) : Prop where
  isNumeral : IsNumeral text
  isFinite : ∃ v : Float, Double.read? text = some v ∧ v.isFinite = true

section Signed
variable (negative : Bool) {magnitude : List Char} (h : IsMagnitude magnitude)
include h

/-- The word for no number and those for infinity begin with a letter. -/
theorem readMagnitude?_eq : Double.readMagnitude? negative magnitude =
    some ((Decimal.ofDigits magnitude).toDouble negative) := by
  have hread := h.read?
  obtain ⟨c, rest, rfl, hdigit⟩ := h.exists_head
  have hletter : ∀ letter : Char, letter.isLower = true → c.toLower ≠ letter := by
    intro letter hlower heq
    have halpha := Char.isLower_toLower_eq_isAlpha c
    have hrange := Token.isDigit_iff.mp hdigit
    rw [heq, hlower] at halpha
    have hrange' := Token.isAlpha_iff.mp halpha.symm
    omega
  have hi := hletter 'i' (by decide)
  have hn := hletter 'n' (by decide)
  simp [Double.readMagnitude?, lowerCase, hi, hn, hread]

theorem read?_signed : Double.read? (signed negative magnitude) =
    some ((Decimal.ofDigits magnitude).toDouble negative) := by
  have hread := readMagnitude?_eq negative h
  cases negative with
  | true => exact hread
  | false =>
      obtain ⟨c, rest, rfl, hdigit⟩ := h.exists_head
      have hsign : ∀ sign : Char, sign.isDigit = false → ∀ more, c :: rest ≠ sign :: more := by
        intro sign hsign more heq
        rw [(List.cons.inj heq).1, hsign] at hdigit
        contradiction
      rw [signed, if_neg Bool.false_ne_true, Double.read?]
      · exact hread
      · exact hsign '-' (by decide)
      · exact hsign '+' (by decide)

/-- A signed magnitude is an operand when its number is in the range of doubles. -/
theorem isOperand_signed_iff : IsOperand (signed negative magnitude) ↔
    (Decimal.ofDigits magnitude).pattern Layout.double < Layout.double.top := by
  have htop := Decimal.pattern_le_top (Decimal.ofDigits magnitude)
  have hfinite : ((Decimal.ofDigits magnitude).toDouble negative).isFinite =
      decide ((Decimal.ofDigits magnitude).pattern Layout.double < Layout.double.top) := by
    rw [Decimal.toDouble, Double.isFinite_eq, Double.pattern_ofPattern _ htop]
    rfl
  constructor
  · intro hoperand
    obtain ⟨v, hread, hv⟩ := hoperand.isFinite
    rw [read?_signed negative h] at hread
    rw [← Option.some.inj hread, hfinite] at hv
    exact of_decide_eq_true hv
  · intro hpattern
    exact ⟨.signed negative h, _, read?_signed negative h, hfinite.trans (decide_eq_true hpattern)⟩

end Signed

/-- The text of a finite number is read as that number. -/
theorem read?_plainText {v : Float} (h : v.isFinite = true) :
    Double.read? (Double.plainText v) = some v := by
  have hmagnitude := isMagnitude_positional (Double.shortest v)
  have hread := readMagnitude?_eq (Double.negative v) hmagnitude
  have hread' := hmagnitude.read?
  rw [Decimal.read?_positional] at hread'
  rw [Double.plainText_eq h, read?_signed _ hmagnitude, ← Option.some.inj hread',
    Double.toDouble_shortest_self h]

theorem isOperand_plainText {v : Float} (h : v.isFinite = true) :
    IsOperand (Double.plainText v) where
  isNumeral := by
    rw [Double.plainText_eq h]
    exact .signed _ (isMagnitude_positional _)
  isFinite := ⟨v, read?_plainText h, h⟩

namespace IsOperand

theorem of_digit {c : Char} (h : c.isDigit = true) : IsOperand [c] := by
  have hmagnitude : IsMagnitude [c] := .whole (by simp) (by simpa using h)
  refine (isOperand_signed_iff false hmagnitude).mpr (Decimal.pattern_ofDigits_lt ?_)
  exact List.countP_le_length.trans (by simp)

theorem zero_point : IsOperand ['0', '.'] := by
  have hzero : IsMagnitude ['0'] := .whole (by simp) (List.all_eq_true.mp (by decide))
  have hmagnitude : IsMagnitude ['0', '.'] := hzero.concat_point (by decide)
  exact (isOperand_signed_iff false hmagnitude).mpr (Decimal.pattern_ofDigits_lt (by decide))

variable {text : List Char} (h : IsOperand text)
include h

theorem exists_signed : ∃ (negative : Bool) (magnitude : List Char),
    text = signed negative magnitude ∧ IsMagnitude magnitude ∧
      (Decimal.ofDigits magnitude).pattern Layout.double < Layout.double.top := by
  cases h.isNumeral with
  | signed negative hmagnitude =>
      exact ⟨negative, _, rfl, hmagnitude, (isOperand_signed_iff negative hmagnitude).mp h⟩

/-- One more digit, where there are few. -/
theorem concat_digit {c : Char} (hc : c.isDigit = true)
    (hcount : text.countP Char.isDigit < 300) : IsOperand (text ++ [c]) := by
  obtain ⟨negative, magnitude, rfl, hmagnitude, -⟩ := h.exists_signed
  have hminus : '-'.isDigit = false := by decide
  have hcount' : (signed negative magnitude).countP Char.isDigit =
      magnitude.countP Char.isDigit := by
    cases negative with
    | false => rfl
    | true => exact List.countP_cons_of_neg (by simp [hminus])
  rw [hcount'] at hcount
  rw [signed_append, isOperand_signed_iff negative (hmagnitude.concat_digit hc)]
  refine Decimal.pattern_ofDigits_lt ?_
  rw [List.countP_append, List.countP_singleton, if_pos hc]
  omega

theorem concat_point (hpoint : '.' ∉ text) : IsOperand (text ++ ['.']) := by
  obtain ⟨negative, magnitude, rfl, hmagnitude, hpattern⟩ := h.exists_signed
  have hpoint' : '.' ∉ magnitude := by
    cases negative with
    | false => exact hpoint
    | true => exact fun hmem => hpoint (List.mem_cons_of_mem _ hmem)
  rw [signed_append, isOperand_signed_iff negative (hmagnitude.concat_point hpoint'),
    Decimal.ofDigits_concat_point]
  exact hpattern

/-- Without its last character an operand is empty, a sign, or an operand. -/
theorem dropLast : text.dropLast = [] ∨ text.dropLast = ['-'] ∨ IsOperand text.dropLast := by
  obtain ⟨negative, magnitude, rfl, hmagnitude, hpattern⟩ := h.exists_signed
  rw [hmagnitude.dropLast_signed]
  rcases hmagnitude.dropLast with hempty | hshorter
  · rw [hempty]
    cases negative with
    | false => exact Or.inl rfl
    | true => exact Or.inr (Or.inl rfl)
  · refine Or.inr (Or.inr ((isOperand_signed_iff negative hshorter).mpr ?_))
    exact Nat.lt_of_le_of_lt hmagnitude.pattern_dropLast_le hpattern

theorem of_minus {rest : List Char} (heq : text = '-' :: rest) : IsOperand rest := by
  obtain ⟨negative, magnitude, rfl, hmagnitude, hpattern⟩ := h.exists_signed
  cases negative with
  | false =>
      obtain ⟨c, more, rfl, hdigit⟩ := hmagnitude.exists_head
      rw [(List.cons.inj heq).1] at hdigit
      contradiction
  | true =>
      rw [← (List.cons.inj heq).2]
      exact (isOperand_signed_iff false hmagnitude).mpr hpattern

theorem minus (hhead : ∀ rest : List Char, text ≠ '-' :: rest) : IsOperand ('-' :: text) := by
  obtain ⟨negative, magnitude, rfl, hmagnitude, hpattern⟩ := h.exists_signed
  cases negative with
  | false => exact (isOperand_signed_iff true hmagnitude).mpr hpattern
  | true => exact absurd rfl (hhead magnitude)

theorem cases_of_mem {c : Char} (hc : c ∈ text) : c = '-' ∨ c.isDigit = true ∨ c = '.' := by
  obtain ⟨negative, magnitude, rfl, hmagnitude, -⟩ := h.exists_signed
  cases negative with
  | false => exact Or.inr (hmagnitude.isDigit_or_point_of_mem hc)
  | true =>
      rcases List.mem_cons.mp hc with rfl | hmem
      · exact Or.inl rfl
      · exact Or.inr (hmagnitude.isDigit_or_point_of_mem hmem)

theorem ne_nil : text ≠ [] := by
  obtain ⟨negative, magnitude, rfl, hmagnitude, -⟩ := h.exists_signed
  obtain ⟨c, rest, rfl, -⟩ := hmagnitude.exists_head
  cases negative <;> exact List.cons_ne_nil _ _

theorem ne_errorText : text ≠ Display.errorText := by
  rintro rfl
  exact absurd (h.cases_of_mem (c := 'E') (by decide)) (by decide)

end IsOperand

end GraphCalc
