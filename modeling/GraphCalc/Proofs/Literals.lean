/-
Literals: digits with at most one point, and a power of ten behind them.  What is read
as a number is a literal, its value is the one that the literal stands for, and no
longer literal begins at the same place.
-/
import GraphCalc.Proofs.DecimalValues
import GraphCalc.Proofs.NumberLexemes
import GraphCalc.Proofs.TextEnds
namespace GraphCalc.Token

/-! ### Literals and their values -/

/-- A power of ten behind the digits of a number. -/
structure Power where
  mark : Char
  sign : Option Char
  digits : List Char
  mark_eq : mark = 'e' ∨ mark = 'E'
  sign_eq : ∀ c ∈ sign, c = '+' ∨ c = '-' ∨ c = '−'
  isDigit : ∀ c ∈ digits, c.isDigit = true
  ne_nil : digits ≠ []

/-- A number as it is written. -/
structure Literal where
  whole : List Char
  /-- the digits behind the point, if there is one -/
  fraction : Option (List Char)
  power : Option Power
  isDigit_whole : ∀ c ∈ whole, c.isDigit = true
  isDigit_fraction : ∀ c ∈ fraction.getD [], c.isDigit = true
  ne_nil : whole ++ fraction.getD [] ≠ []

namespace Power

def text (power : Power) : List Char :=
  power.mark :: (power.sign.toList ++ power.digits)

def exponent (power : Power) : ℤ :=
  if power.sign = some '-' ∨ power.sign = some '−' then -numeralValue power.digits
  else numeralValue power.digits

end Power

namespace Literal

/-- The digits with their point. -/
def mantissa (literal : Literal) : List Char :=
  literal.whole ++ literal.fraction.elim [] (fun digits => '.' :: digits)

def text (literal : Literal) : List Char :=
  literal.mantissa ++ literal.power.elim [] Power.text

/-- The number that is written: the digits behind the point are tenths, hundredths and so
on. -/
def value (literal : Literal) : ℚ :=
  numeralValue (literal.whole ++ literal.fraction.getD []) *
    10 ^ (literal.power.elim 0 Power.exponent - (literal.fraction.getD []).length)

end Literal

/-- Numbers are read with the minus sign of ASCII. -/
def asciiMinus (c : Char) : Char :=
  if c = '−' then '-' else c

theorem map_asciiMinus {text : List Char} (h : '−' ∉ text) : text.map asciiMinus = text := by
  refine (List.map_congr_left (fun c hc => ?_)).trans (List.map_id _)
  have hne : c ≠ '−' := fun heq => h (heq ▸ hc)
  exact if_neg hne

theorem minus_not_mem {text : List Char} (h : ∀ c ∈ text, inMantissa c = true) : '−' ∉ text :=
  fun hmem => absurd (h _ hmem) (by decide)

/-! ### The power -/

theorem inMantissa_of_mark {mark : Char} (h : mark = 'e' ∨ mark = 'E') :
    inMantissa mark = false := by
  rcases h with rfl | rfl <;> decide

theorem isSign_iff {c : Char} : isSign c = true ↔ c = '+' ∨ c = '-' ∨ c = '−' := by
  simp only [isSign, Bool.or_eq_true, decide_eq_true_eq, or_assoc]

theorem not_isSign_of_isDigit {c : Char} (h : c.isDigit = true) : isSign c = false := by
  refine Bool.eq_false_iff.mpr (fun hsign => ?_)
  rw [isDigit_of_isSign hsign] at h
  contradiction

/-- The exponent at the beginning of a text is a power, if there is one. -/
theorem exponentLexeme_cases (text : List Char) :
    exponentLexeme text = [] ∨ ∃ power : Power, exponentLexeme text = power.text := by
  cases text with
  | nil => exact Or.inl rfl
  | cons mark rest =>
      obtain ⟨sign, hsign⟩ : ∃ sign, sign = (rest.take 1).takeWhile isSign := ⟨_, rfl⟩
      obtain ⟨digits, hdigits⟩ :
          ∃ digits, digits = (rest.drop sign.length).takeWhile Char.isDigit := ⟨_, rfl⟩
      simp only [exponentLexeme, ← hsign, ← hdigits]
      split
      · next hmark =>
          split
          · exact Or.inl rfl
          · next hne =>
              have hlength : sign.length ≤ 1 := by
                rw [hsign]
                refine Nat.le_trans (List.takeWhile_prefix isSign).length_le ?_
                exact List.length_take_le 1 rest
              have hshape : sign.head?.toList = sign := by
                rcases sign with _ | ⟨c, _ | ⟨other, more⟩⟩
                · rfl
                · rfl
                · simp at hlength
              refine Or.inr ⟨⟨mark, sign.head?, digits, by simpa using hmark, ?_, ?_, ?_⟩, ?_⟩
              · intro c hc
                have hmem : c ∈ sign := List.mem_of_mem_head? hc
                rw [hsign] at hmem
                exact isSign_iff.mp (List.mem_takeWhile_imp hmem)
              · intro c hc
                rw [hdigits] at hc
                exact List.mem_takeWhile_imp hc
              · simpa using hne
              · rw [Power.text, hshape]
      · exact Or.inl rfl

namespace Power
variable (power : Power)

/-- No digit and no point begins a power. -/
theorem inMantissa_head (rest : List Char) :
    ∀ c ∈ (power.text ++ rest).head?, inMantissa c = false := by
  intro c hc
  obtain rfl : power.mark = c := by simpa [text] using hc
  exact inMantissa_of_mark power.mark_eq

/-- A power is read to its last digit. -/
theorem readExponent?_text :
    Decimal.readExponent? (power.text.map asciiMinus) = some power.exponent := by
  obtain ⟨mark, sign, digits, hmark, hsign, hdigits, hne⟩ := power
  have hplain : digits.map asciiMinus = digits :=
    map_asciiMinus (minus_not_mem (fun c hc => inMantissa_of_isDigit (hdigits c hc)))
  have hall : digits.all Char.isDigit = true := List.all_eq_true.mpr hdigits
  have hempty : digits.isEmpty = false := by simpa using hne
  have hmark' : asciiMinus mark = 'e' ∨ asciiMinus mark = 'E' := by
    rcases hmark with rfl | rfl <;> simp [asciiMinus]
  cases sign with
  | none =>
      obtain ⟨head, more, rfl⟩ := List.exists_cons_of_ne_nil hne
      have hhead : head.isDigit = true := hdigits head List.mem_cons_self
      have hminus : head ≠ '-' := by
        rintro rfl
        exact absurd hhead (by decide)
      have hplus : head ≠ '+' := by
        rintro rfl
        exact absurd hhead (by decide)
      simp only [text, List.map_cons, Option.toList_none, List.nil_append, hplain,
        Decimal.readExponent?, if_pos hmark', exponent]
      simp [hminus, hplus, hall]
  | some c =>
      rcases hsign c rfl with rfl | rfl | rfl
      all_goals
        simp only [text, List.map_cons, List.map_append, Option.toList_some, List.map_nil, hplain,
          Decimal.readExponent?, if_pos hmark', exponent]
        simp [asciiMinus, hall, hempty]

/-- The exponent at the beginning of a text is as long as any power there. -/
theorem length_le_exponentLexeme (more : List Char) :
    power.text.length ≤ (exponentLexeme (power.text ++ more)).length := by
  obtain ⟨mark, sign, digits, hmark, hsign, hdigits, hne⟩ := power
  have hlength : digits.length ≤ ((digits ++ more).takeWhile Char.isDigit).length := by
    rw [List.takeWhile_append_of_pos hdigits, List.length_append]
    exact Nat.le_add_right _ _
  have hsome : (digits ++ more).takeWhile Char.isDigit ≠ [] := by
    rw [List.takeWhile_append_of_pos hdigits]
    exact List.append_ne_nil_of_left_ne_nil hne _
  cases sign with
  | none =>
      obtain ⟨head, tail, rfl⟩ := List.exists_cons_of_ne_nil hne
      have hhead := not_isSign_of_isDigit (hdigits head List.mem_cons_self)
      simp only [text, Option.toList_none, List.nil_append, List.cons_append, exponentLexeme]
      rw [List.cons_append] at hlength hsome
      simpa [hmark, hhead, hsome] using hlength
  | some c =>
      have hc : isSign c = true := isSign_iff.mpr (hsign c rfl)
      simp only [text, Option.toList_some, List.cons_append, List.nil_append, exponentLexeme]
      simpa [hmark, hc, hsome] using hlength

end Power

/-- An exponent begins with no digit and no point. -/
theorem endsDigits_exponentLexeme (text : List Char) :
    Decimal.EndsDigits ((exponentLexeme text).map asciiMinus) := by
  rcases exponentLexeme_cases text with hnone | ⟨power, hsome⟩
  · rw [hnone]
    exact Decimal.endsDigits_nil
  · intro c hc
    rw [hsome] at hc
    obtain rfl : asciiMinus power.mark = c := by simpa [Power.text] using hc
    rcases power.mark_eq with hmark | hmark <;> rw [hmark] <;> decide

/-! ### The number -/

/-- Digits and points: no point, one point, or another one behind the first. -/
theorem mantissa_cases {mantissa : List Char} (h : ∀ c ∈ mantissa, inMantissa c = true) :
    ∃ whole : List Char, (∀ c ∈ whole, c.isDigit = true) ∧
      (mantissa = whole ∨ ∃ fraction : List Char, (∀ c ∈ fraction, c.isDigit = true) ∧
        (mantissa = whole ++ '.' :: fraction ∨
          ∃ more : List Char, mantissa = whole ++ '.' :: (fraction ++ '.' :: more))) := by
  have hsplit : ∀ text : List Char, (∀ c ∈ text, inMantissa c = true) →
      ∃ digits : List Char, (∀ c ∈ digits, c.isDigit = true) ∧
        (text = digits ∨ ∃ more : List Char, text = digits ++ '.' :: more) := by
    intro text htext
    refine ⟨text.takeWhile Char.isDigit, fun c hc => List.mem_takeWhile_imp hc, ?_⟩
    cases hmore : text.dropWhile Char.isDigit with
    | nil =>
        refine Or.inl ?_
        conv_lhs => rw [← List.takeWhile_append_dropWhile (p := Char.isDigit) (l := text), hmore,
          List.append_nil]
    | cons c more =>
        have hmem : c ∈ text := (List.dropWhile_suffix Char.isDigit).mem
          (by rw [hmore]; exact List.mem_cons_self)
        have hdigit : c.isDigit = false := by
          have hnot := List.head?_dropWhile_not Char.isDigit text
          rwa [hmore] at hnot
        have hpoint : c = '.' := by simpa [inMantissa, hdigit] using htext c hmem
        refine Or.inr ⟨more, ?_⟩
        rw [← hpoint, ← hmore, List.takeWhile_append_dropWhile]
  obtain ⟨whole, hwhole, rfl | ⟨rest, rfl⟩⟩ := hsplit mantissa h
  · exact ⟨_, hwhole, Or.inl rfl⟩
  · obtain ⟨fraction, hfraction, rfl | ⟨more, rfl⟩⟩ := hsplit rest (fun c hc => h c (by simp [hc]))
    · exact ⟨whole, hwhole, Or.inr ⟨_, hfraction, Or.inl rfl⟩⟩
    · exact ⟨whole, hwhole, Or.inr ⟨fraction, hfraction, Or.inr ⟨more, rfl⟩⟩⟩

/-- A point behind a point is no exponent. -/
theorem read?_two_points {whole fraction : List Char} (hwhole : ∀ c ∈ whole, c.isDigit = true)
    (hfraction : ∀ c ∈ fraction, c.isDigit = true) (more : List Char) :
    Decimal.read? (whole ++ '.' :: (fraction ++ '.' :: more)) = none := by
  have hpoint : ∀ c ∈ ('.' :: more).head?, c.isDigit = false := by
    intro c hc
    obtain rfl : '.' = c := by simpa using hc
    decide
  rw [Decimal.read?_fraction hwhole hfraction hpoint]
  split <;> rfl

/-- A number that is read is a literal with its value. -/
theorem exists_literal {c : Char} {rest : List Char} {d : Decimal} (h : inMantissa c = true)
    (hread : Decimal.read? ((numberLexeme (c :: rest)).map asciiMinus) = some d) :
    ∃ literal : Literal, literal.text = numberLexeme (c :: rest) ∧ literal.value = d.value := by
  obtain ⟨mantissa, behind, rfl, hmantissa, hends⟩ := exists_mantissa h rest
  obtain ⟨power, hpower⟩ : ∃ power : Option Power,
      exponentLexeme behind = power.elim [] Power.text := by
    rcases exponentLexeme_cases behind with hnone | ⟨power, hsome⟩
    · exact ⟨none, hnone⟩
    · exact ⟨some power, hsome⟩
  have hdigits := endsDigits_exponentLexeme behind
  rw [hpower] at hdigits
  obtain ⟨tail, htail⟩ : ∃ tail, tail = (power.elim [] Power.text).map asciiMinus := ⟨_, rfl⟩
  rw [← htail] at hdigits
  have hexponent : Decimal.readExponent? tail = some (power.elim 0 Power.exponent) := by
    cases power with
    | none => rw [htail]; rfl
    | some power => rw [htail]; exact power.readExponent?_text
  have hlexeme : numberLexeme (c :: (mantissa ++ behind)) =
      c :: mantissa ++ power.elim [] Power.text := by
    rw [← List.cons_append, numberLexeme_eq hmantissa hends, hpower]
  rw [hlexeme, List.map_append, map_asciiMinus (minus_not_mem hmantissa), ← htail] at hread
  obtain ⟨whole, hwhole, heq | ⟨fraction, hfraction, heq | ⟨more, heq⟩⟩⟩ :=
    mantissa_cases hmantissa
  · have hne : whole ≠ [] := heq ▸ List.cons_ne_nil c mantissa
    rw [heq, Decimal.read?_whole hne hwhole hdigits, hexponent] at hread
    refine ⟨⟨whole, none, power, hwhole, by simp, by simpa using hne⟩, ?_, ?_⟩
    · rw [hlexeme, heq]
      simp [Literal.text, Literal.mantissa]
    · rw [← Option.some.inj hread]
      simp [Literal.value, Decimal.value]
  · rw [heq, List.append_assoc, List.cons_append,
      Decimal.read?_fraction hwhole hfraction (fun c hc => (hdigits c hc).1), hexponent] at hread
    split at hread
    · contradiction
    · next hne =>
        refine ⟨⟨whole, some fraction, power, hwhole, hfraction, hne⟩, ?_, ?_⟩
        · rw [hlexeme, heq]
          rfl
        · rw [← Option.some.inj hread]
          rfl
  · have hassoc : whole ++ '.' :: (fraction ++ '.' :: more) ++ tail =
        whole ++ '.' :: (fraction ++ '.' :: (more ++ tail)) := by simp
    rw [heq, hassoc, read?_two_points hwhole hfraction] at hread
    contradiction

/-- Behind its mantissa only the exponent of a number is left to be read. -/
theorem read?_mantissa {mantissa tail : List Char} (hne : mantissa ≠ [])
    (h : ∀ c ∈ mantissa, inMantissa c = true) (htail : Decimal.EndsDigits tail) :
    Decimal.read? (mantissa ++ tail) = (Decimal.read? mantissa).bind (fun d =>
      (Decimal.readExponent? tail).map (fun k => ⟨d.coefficient, d.exponent + k⟩)) := by
  obtain ⟨whole, hwhole, rfl | ⟨fraction, hfraction, rfl | ⟨more, rfl⟩⟩⟩ := mantissa_cases h
  · have hplain := Decimal.read?_whole hne hwhole Decimal.endsDigits_nil
    rw [List.append_nil, Decimal.readExponent?_nil] at hplain
    rw [Decimal.read?_whole hne hwhole htail, hplain]
    simp
  · have hends : ∀ c ∈ ([] : List Char).head?, c.isDigit = false := nofun
    have hplain := Decimal.read?_fraction hwhole hfraction hends
    rw [List.append_nil, Decimal.readExponent?_nil] at hplain
    rw [List.append_assoc, List.cons_append,
      Decimal.read?_fraction hwhole hfraction (fun c hc => (htail c hc).1), hplain]
    split
    · rfl
    · simp only [Option.map_some, Option.bind_some]
      exact Option.map_congr (fun k _ => by congr 1; omega)
  · have hassoc : whole ++ '.' :: (fraction ++ '.' :: more) ++ tail =
        whole ++ '.' :: (fraction ++ '.' :: (more ++ tail)) := by simp
    rw [hassoc, read?_two_points hwhole hfraction, read?_two_points hwhole hfraction]
    rfl

namespace Literal
variable (literal : Literal)

theorem inMantissa_mantissa : ∀ c ∈ literal.mantissa, inMantissa c = true := by
  intro c hc
  rcases List.mem_append.mp hc with hwhole | hrest
  · exact inMantissa_of_isDigit (literal.isDigit_whole c hwhole)
  · cases hfraction : literal.fraction with
    | none =>
        rw [hfraction] at hrest
        contradiction
    | some digits =>
        rw [hfraction] at hrest
        rcases List.mem_cons.mp hrest with rfl | hdigit
        · decide
        · exact inMantissa_of_isDigit (literal.isDigit_fraction c (by rwa [hfraction]))

theorem mantissa_ne_nil : literal.mantissa ≠ [] := by
  intro hnil
  obtain ⟨hwhole, hrest⟩ := List.append_eq_nil_iff.mp hnil
  cases hfraction : literal.fraction with
  | none => exact literal.ne_nil (by rw [hwhole, hfraction]; rfl)
  | some digits =>
      rw [hfraction] at hrest
      contradiction

theorem text_ne_nil : literal.text ≠ [] :=
  List.append_ne_nil_of_left_ne_nil literal.mantissa_ne_nil _

/-- A literal begins with a digit or with a point. -/
theorem inMantissa_head : ∀ c ∈ literal.text.head?, inMantissa c = true := by
  intro c hc
  rw [text, List.head?_append_of_ne_nil _ literal.mantissa_ne_nil] at hc
  exact literal.inMantissa_mantissa c (List.mem_of_mem_head? hc)

/-- What is read as a number is as long as any literal at that place. -/
theorem length_le_numberLexeme {text : List Char} (h : literal.text <+: text) :
    literal.text.length ≤ (numberLexeme text).length := by
  obtain ⟨more, rfl⟩ := h
  have hmantissa := literal.inMantissa_mantissa
  cases hpower : literal.power with
  | none =>
      have htext : literal.text = literal.mantissa := by rw [Literal.text, hpower]; simp
      have hrun : literal.mantissa <+: (literal.mantissa ++ more).takeWhile inMantissa := by
        rw [List.takeWhile_append_of_pos hmantissa]
        exact List.prefix_append _ _
      rw [htext]
      exact (hrun.trans (List.prefix_append _ _)).length_le
  | some power =>
      have htext : literal.text = literal.mantissa ++ power.text := by
        rw [Literal.text, hpower]
        rfl
      rw [htext, List.append_assoc, numberLexeme_eq hmantissa (power.inMantissa_head more),
        List.length_append, List.length_append]
      exact Nat.add_le_add_left (power.length_le_exponentLexeme more) _

end Literal

end GraphCalc.Token
