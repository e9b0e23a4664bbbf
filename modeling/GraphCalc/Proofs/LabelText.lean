/-
The text of a label.  It can be read as the rounded number that it stands for, so two labels
are the same text only where rounding does not tell their numbers apart.
-/
import GraphCalc.Grid
import GraphCalc.Proofs.DoubleDistances
import GraphCalc.Proofs.NumberReading
import GraphCalc.Proofs.RoundedOperations
namespace GraphCalc.Grid

open Double Display
open Layout (double)

/-- The number has a label in exponential notation. -/
def Outlying (v : Float) : Prop :=
  1000.0 ≤ v.abs ∨ v.abs < 0.01

instance (v : Float) : Decidable (Outlying v) :=
  inferInstanceAs (Decidable (_ ∨ _))

def labelDigits (v : Float) : ℕ :=
  if Outlying v then 1 else 3

/-- The decimal that a label stands for, without its sign. -/
def labelled (v : Float) : Decimal :=
  Decimal.significant (labelDigits v) (units v) double.unitDenominator

def labelMagnitude (v : Float) : List Char :=
  if v.isFinite = true then
    if Outlying v then numeral (labelled v).coefficient ++ 'e' :: powerText (labelled v).exponent
    else (double.shortest ((labelled v).pattern double)).positional
  else ['i', 'n', 'f']

/-! ### The limits of the notations -/

/-- The pattern of one hundredth. -/
def centi : ℕ :=
  0x3F847AE147AE147B

/-- The pattern of `1000`. -/
def kilo : ℕ :=
  0x408F400000000000

theorem label_limits : (negative 1000.0 = false ∧ pattern 1000.0 = kilo) ∧
    negative 0.01 = false ∧ pattern 0.01 = centi := by
  decide +kernel

theorem outlying_iff {v : Float} (h : v.isFinite = true) :
    Outlying v ↔ kilo ≤ pattern v ∨ pattern v < centi := by
  obtain ⟨⟨hsign, hpattern⟩, hsign', hpattern'⟩ := label_limits
  have hlarge := (abs_lt_iff hsign (by rw [hpattern]; decide) h).2
  have hsmall := (abs_lt_iff hsign' (by rw [hpattern']; decide) h).1
  rw [Outlying, hlarge, hsmall, hpattern, hpattern']

theorem outlying_of_isInf {v : Float} (h : v.isInf = true) : Outlying v := by
  rw [isInf_eq, decide_eq_true_eq] at h
  have habs := abs_eq (Nat.le_of_eq h)
  have hle := Nat.le_of_eq h
  obtain ⟨⟨hsign, hpattern⟩, -⟩ := label_limits
  refine Or.inl ((le_iff hsign ?_ ?_ ?_).mpr ?_)
  · rw [habs, negative_ofPattern false hle]
  · rw [hpattern]
    decide
  · rwa [habs, pattern_ofPattern false hle]
  · rw [habs, pattern_ofPattern false hle, hpattern, h]
    decide

theorem magnitude_label_limits : double.magnitude (centi - 1) < 10 ^ (-2 : ℤ) ∧
    10 ^ (-2 : ℤ) ≤ double.magnitude centi ∧ double.magnitude kilo = 1000 := by
  have hbelow := double.magnitude_le_of (centi - 1) (10 ^ 16 - 1) (by decide : 0 < 10 ^ 18)
    (by decide +kernel)
  have habove := double.le_magnitude_of centi 1 (by decide : 0 < 100) (by decide +kernel)
  have hkilo := double.magnitude_le_of kilo 1000 (by decide : 0 < 1) (by decide +kernel)
  have hkilo' := double.le_magnitude_of kilo 1000 (by decide : 0 < 1) (by decide +kernel)
  refine ⟨?_, ?_, ?_⟩
  · refine hbelow.trans_lt ?_
    norm_num
  · norm_num at habove ⊢
    exact habove
  · norm_num at hkilo hkilo'
    exact le_antisymm hkilo hkilo'

/-! ### The text -/

theorem scientific_digit {d : Decimal} (hpos : 0 < d.coefficient) (hlt : d.coefficient < 10) :
    d.scientific = numeral d.coefficient ++ 'e' :: integerNumeral d.exponent := by
  have hlength : (numeral d.coefficient).length = 0 + 1 :=
    length_numeral_eq (Nat.succ_le_of_lt hpos) (by simpa using hlt)
  obtain ⟨digit, hdigit⟩ := List.length_eq_one_iff.mp hlength
  simp [Decimal.scientific, hdigit]

theorem exponential_digit {v : Float} (h : v.isFinite = true) (hpos : 0 < pattern v) :
    exponential 0 v = signed (negative v) (numeral (roundedTo 1 (pattern v)).coefficient ++
      'e' :: powerText (roundedTo 1 (pattern v)).exponent) := by
  obtain ⟨hle, hlt⟩ := roundedTo_coefficient (by decide : 0 < 1) hpos
  exact exponential_of_scientific h hpos (scientific_digit hle hlt)
    (fun c hc => ne_exponent_of_isDigit (isDigit_of_mem_numeral hc))

theorem exponential_of_isInf {v : Float} (h : v.isInf = true) :
    exponential 0 v = signed (negative v) ['i', 'n', 'f'] := by
  have hnumber := isNaN_of_isInf h
  have hinfinite := isFinite_of_isInf h
  have hplaces : scientificPlaces 0 v = signed (negative v) ['i', 'n', 'f'] := by
    simp only [scientificPlaces, textWith, hnumber, hinfinite, Bool.false_eq_true, if_false]
  rw [exponential, hplaces]
  cases negative v <;> rfl

/-- A label is the text of a magnitude with its sign. -/
theorem label_eq {v : Float} (hnumber : v.isNaN = false) (hpos : 0 < pattern v) :
    label v = signed (negative v) (labelMagnitude v) := by
  have hzero : (v == 0.0) = false := by
    rw [beq_zero_eq (le_of_isNaN_eq_false hnumber)]
    exact decide_eq_false (Nat.ne_of_gt hpos)
  have houtlying : (decide (1000.0 ≤ v.abs) || decide (v.abs < 0.01)) = decide (Outlying v) :=
    (Bool.decide_or _ _).symm
  rw [label, hzero, houtlying, labelMagnitude, labelled, labelDigits]
  rcases isFinite_or_isInf hnumber with hfinite | hinfinite
  · rw [if_pos hfinite]
    by_cases h : Outlying v
    · simp only [h, decide_true, if_true, Bool.false_eq_true, if_false]
      exact exponential_digit hfinite hpos
    · simp only [h, decide_false, Bool.false_eq_true, if_false]
      rw [outlying_iff hfinite, not_or, Nat.not_le] at h
      exact plainText_roundSignificant (by decide) hfinite hpos (h.1.trans (by decide))
  · simp only [outlying_of_isInf hinfinite, isFinite_of_isInf hinfinite, decide_true, if_true,
      Bool.false_eq_true, if_false]
    exact exponential_of_isInf hinfinite

/-! ### Reading a label -/

theorem endsDigits_exponent (rest : List Char) : Decimal.EndsDigits ('e' :: rest) := by
  intro c hc
  obtain rfl : 'e' = c := by simpa using hc
  decide

theorem read?_power (d : Decimal) :
    Decimal.read? (numeral d.coefficient ++ 'e' :: powerText d.exponent) = some d := by
  rw [Decimal.read?_whole (numeral_ne_nil _) (fun c => isDigit_of_mem_numeral)
    (endsDigits_exponent _), read?_powerText, numeralValue_numeral]
  rfl

theorem read?_labelMagnitude {v : Float} (hfinite : v.isFinite = true) :
    Decimal.read? (labelMagnitude v) = some (if Outlying v then labelled v
      else (double.shortest ((labelled v).pattern double)).writtenOut) := by
  rw [labelMagnitude, if_pos hfinite]
  by_cases h : Outlying v
  · rw [if_pos h, if_pos h, read?_power]
  · rw [if_neg h, if_neg h, Decimal.read?_positional]

/-- Only exponential notation has the letter of an exponent. -/
theorem mem_labelMagnitude_iff {v : Float} (hfinite : v.isFinite = true) :
    'e' ∈ labelMagnitude v ↔ Outlying v := by
  rw [labelMagnitude, if_pos hfinite]
  split
  · next h => simp [h]
  · next h =>
      refine iff_of_false (fun hmem => ?_) h
      exact absurd (Decimal.isDigit_or_point_of_mem_positional hmem) (by decide)

/-- No magnitude begins with a sign. -/
theorem head_labelMagnitude_ne (v : Float) : ∀ c ∈ (labelMagnitude v).head?, c ≠ '-' := by
  rw [labelMagnitude]
  split
  · split
    · intro c hc
      rw [List.head?_append_of_ne_nil _ (numeral_ne_nil _)] at hc
      have hdigit := isDigit_of_mem_numeral (List.mem_of_mem_head? hc)
      rintro rfl
      exact absurd hdigit (by decide)
    · intro c hc
      have hdigit := Decimal.isDigit_or_point_of_mem_positional (List.mem_of_mem_head? hc)
      rintro rfl
      exact absurd hdigit (by decide)
  · intro c hc
    obtain rfl : 'i' = c := by simpa using hc
    decide

theorem signed_eq_signed_iff {sign sign' : Bool} {text text' : List Char}
    (h : ∀ c ∈ text.head?, c ≠ '-') (h' : ∀ c ∈ text'.head?, c ≠ '-') :
    signed sign text = signed sign' text' ↔ sign = sign' ∧ text = text' := by
  have hne {text text' : List Char} (h' : ∀ c ∈ text'.head?, c ≠ '-') : '-' :: text ≠ text' := by
    intro heq
    rw [← heq] at h'
    exact h' '-' List.head?_cons rfl
  cases sign <;> cases sign'
  · exact ⟨fun heq => ⟨rfl, heq⟩, And.right⟩
  · exact iff_of_false (fun heq => hne h heq.symm) (fun hboth => Bool.noConfusion hboth.1)
  · exact iff_of_false (hne h') (fun hboth => Bool.noConfusion hboth.1)
  · exact ⟨fun heq => ⟨rfl, (List.cons.inj heq).2⟩, fun hboth => congrArg _ hboth.2⟩

/-! ### Labels with one text -/

/-- Rounding to the digits of a label does not tell the two numbers apart. -/
structure Merged (v w : Float) : Prop where
  isFinite : v.isFinite = true ∧ w.isFinite = true
  negative_eq : negative v = negative w
  outlying_iff : Outlying v ↔ Outlying w
  labelled_eq : labelled v = labelled w

theorem labelled_eq_roundedTo (v : Float) : labelled v = roundedTo (labelDigits v) (pattern v) :=
  rfl

section Plain
variable {v : Float} (hfinite : v.isFinite = true) (h : ¬ Outlying v)
include hfinite h

theorem centi_le_pattern : centi ≤ pattern v ∧ pattern v < kilo := by
  rw [outlying_iff hfinite] at h
  omega

/-- The double that is read for three digits is rounded to them again. -/
theorem roundedTo_labelled : roundedTo 3 ((labelled v).pattern double) = labelled v := by
  obtain ⟨hcenti, hkilo⟩ := centi_le_pattern hfinite h
  have hpos : 0 < pattern v := Nat.lt_of_lt_of_le (by decide) hcenti
  have hlower : (10 : ℚ) ^ (-2 : ℤ) ≤ (roundedTo 3 (pattern v)).value :=
    Decimal.le_value_significant (by decide) (double.units_pos hpos) double.unitDenominator_natPos
      (magnitude_label_limits.2.1.trans (double.magnitude_strictMono.monotone hcenti))
  have hexponent := lt_exponent_roundedTo (by decide) hpos hlower
  have hupper := pattern_roundedTo_le_upperLimit (by decide : 0 < 3) hpos
    (hkilo.trans (by decide))
  rw [labelled_eq_roundedTo, labelDigits, if_neg h]
  exact roundedTo_pattern (by decide) (by decide) hpos (Nat.lt_of_le_of_lt hupper (by decide))
    (Or.inl (by omega))

end Plain

theorem eq_of_isInf {v w : Float} (hv : v.isInf = true) (hw : w.isInf = true)
    (h : negative v = negative w) : v = w := by
  rw [isInf_eq, decide_eq_true_eq] at hv hw
  exact eq_of_pattern h (hv.trans hw.symm)

/-- An infinity is a word, which is not the numeral of a number. -/
theorem labelMagnitude_ne {v w : Float} (hv : v.isFinite = true) (hw : w.isInf = true) :
    labelMagnitude v ≠ labelMagnitude w := by
  intro heq
  have hread := read?_labelMagnitude hv
  have hword : labelMagnitude w = ['i', 'n', 'f'] := by
    rw [labelMagnitude, isFinite_of_isInf hw, if_neg Bool.false_ne_true]
  have hnone : Decimal.read? ['i', 'n', 'f'] = none := by decide
  rw [heq, hword, hnone] at hread
  contradiction

section Pair
variable {v w : Float}

theorem labelled_eq_of_labelMagnitude (hv : v.isFinite = true) (hw : w.isFinite = true)
    (h : labelMagnitude v = labelMagnitude w) :
    (Outlying v ↔ Outlying w) ∧ labelled v = labelled w := by
  have houtlying : Outlying v ↔ Outlying w := by
    rw [← mem_labelMagnitude_iff hv, ← mem_labelMagnitude_iff hw, h]
  refine ⟨houtlying, ?_⟩
  have hread := (read?_labelMagnitude hv).symm.trans (h ▸ read?_labelMagnitude hw)
  rw [Option.some.injEq] at hread
  by_cases hout : Outlying v
  · rwa [if_pos hout, if_pos (houtlying.mp hout)] at hread
  · have hout' := houtlying.not.mp hout
    rw [if_neg hout, if_neg hout'] at hread
    have hpattern := congrArg (Decimal.pattern double) hread
    rw [Decimal.pattern_congr (Decimal.value_writtenOut _),
      Decimal.pattern_congr (Decimal.value_writtenOut _),
      Layout.pattern_shortest (Decimal.pattern_le_top _),
      Layout.pattern_shortest (Decimal.pattern_le_top _)] at hpattern
    rw [← roundedTo_labelled hv hout, ← roundedTo_labelled hw hout', hpattern]

/-- Two numbers have one label exactly where they are one number or rounding merges them. -/
theorem label_eq_iff (hv : v.isNaN = false) (hvpos : 0 < pattern v) (hw : w.isNaN = false)
    (hwpos : 0 < pattern w) : label v = label w ↔ v = w ∨ Merged v w := by
  rw [label_eq hv hvpos, label_eq hw hwpos,
    signed_eq_signed_iff (head_labelMagnitude_ne v) (head_labelMagnitude_ne w)]
  constructor
  · rintro ⟨hsign, hmagnitude⟩
    rcases isFinite_or_isInf hv with hvfinite | hvinfinite <;>
      rcases isFinite_or_isInf hw with hwfinite | hwinfinite
    · obtain ⟨houtlying, hlabelled⟩ := labelled_eq_of_labelMagnitude hvfinite hwfinite hmagnitude
      exact Or.inr ⟨⟨hvfinite, hwfinite⟩, hsign, houtlying, hlabelled⟩
    · exact absurd hmagnitude (labelMagnitude_ne hvfinite hwinfinite)
    · exact absurd hmagnitude.symm (labelMagnitude_ne hwfinite hvinfinite)
    · exact Or.inl (eq_of_isInf hvinfinite hwinfinite hsign)
  · rintro (rfl | hmerged)
    · exact ⟨rfl, rfl⟩
    · refine ⟨hmerged.negative_eq, ?_⟩
      simp only [labelMagnitude, hmerged.isFinite.1, hmerged.isFinite.2, hmerged.outlying_iff,
        hmerged.labelled_eq]

end Pair

/-! ### The distance of merged numbers -/

section Error
variable {v : Float} (hpos : 0 < pattern v)
include hpos

theorem exists_abs_labelled_sub_le : ∃ e : ℤ, (10 : ℚ) ^ e ≤ |value v| ∧
    |((labelled v).value - |value v|)| ≤ 10 ^ (e - labelDigits v + 1) / 2 := by
  have hdigits : 0 < labelDigits v := by
    rw [labelDigits]
    split <;> decide
  rw [abs_value]
  exact Decimal.exists_abs_significant_sub_le hdigits (double.units_pos hpos)
    double.unitDenominator_natPos

theorem abs_labelled_sub_le_of_plain (h : ¬ Outlying v) :
    |((labelled v).value - |value v|)| ≤ |value v| / 200 := by
  obtain ⟨e, hlower, hnear⟩ := exists_abs_labelled_sub_le hpos
  have hgrid : (10 : ℚ) ^ (e - (3 : ℕ) + 1) = 10 ^ e / 100 := by
    rw [show e - (3 : ℕ) + 1 = e - 2 by omega, zpow_sub₀ (by norm_num)]
    norm_num
  rw [labelDigits, if_neg h, hgrid] at hnear
  linarith

theorem abs_labelled_sub_le_of_outlying (h : Outlying v) :
    |((labelled v).value - |value v|)| ≤ |value v| / 2 ∧
      (|value v| < 10 ^ (-2 : ℤ) → |((labelled v).value - |value v|)| ≤ 1 / 2000) := by
  obtain ⟨e, hlower, hnear⟩ := exists_abs_labelled_sub_le hpos
  have hgrid : e - (1 : ℕ) + 1 = e := by omega
  rw [labelDigits, if_pos h, hgrid] at hnear
  refine ⟨by linarith, fun hsmall => ?_⟩
  have hdecade := (zpow_lt_zpow_iff_right₀ (by norm_num : (1 : ℚ) < 10)).mp
    (hlower.trans_lt hsmall)
  have hpower : (10 : ℚ) ^ e ≤ 10 ^ (-3 : ℤ) := zpow_le_zpow_right₀ (by norm_num) (by omega)
  norm_num at hpower
  linarith

end Error

theorem outlying_cases {v : Float} (hfinite : v.isFinite = true) (h : Outlying v) :
    1000 ≤ |value v| ∨ |value v| < 10 ^ (-2 : ℤ) := by
  obtain ⟨hcenti, -, hkilo⟩ := magnitude_label_limits
  rw [abs_value]
  refine ((outlying_iff hfinite).mp h).imp (fun hlarge => ?_) (fun hsmall => ?_)
  · exact hkilo.symm.trans_le (double.magnitude_strictMono.monotone hlarge)
  · have hle : pattern v ≤ centi - 1 := by omega
    exact (double.magnitude_strictMono.monotone hle).trans_lt hcenti

theorem abs_sub_of_negative_eq {v w : Float} (h : negative v = negative w) :
    |value v - value w| = |(|value v| - |value w|)| := by
  rw [abs_value, abs_value]
  cases hsign : negative v with
  | false => rw [value_of_positive hsign, value_of_positive (h ▸ hsign)]
  | true =>
      rw [value_of_negative hsign, value_of_negative (h ▸ hsign), neg_sub_neg, abs_sub_comm]

/-- Numbers that rounding merges are at most one unit of the last digit apart. -/
theorem Merged.near {v w : Float} (h : Merged v w) (hv : 0 < pattern v) (hw : 0 < pattern w) :
    1000 ≤ |value v| ∧ 1000 ≤ |value w| ∨ |value v - value w| ≤ 1 / 1000 ∨
      |value v - value w| ≤ (|value v| + |value w|) / 200 := by
  rw [abs_sub_of_negative_eq h.negative_eq]
  by_cases hout : Outlying v
  · have hout' := h.outlying_iff.mp hout
    obtain ⟨hnear, hfine⟩ := abs_labelled_sub_le_of_outlying hv hout
    obtain ⟨hnear', hfine'⟩ := abs_labelled_sub_le_of_outlying hw hout'
    rw [h.labelled_eq] at hnear hfine
    rcases outlying_cases h.isFinite.1 hout with hlarge | hsmall <;>
      rcases outlying_cases h.isFinite.2 hout' with hlarge' | hsmall'
    · exact Or.inl ⟨hlarge, hlarge'⟩
    · norm_num at hsmall'
      linarith [(abs_le.mp hnear).1, (abs_le.mp hnear').2]
    · norm_num at hsmall
      linarith [(abs_le.mp hnear).2, (abs_le.mp hnear').1]
    · have herror := abs_le.mp (hfine hsmall)
      have herror' := abs_le.mp (hfine' hsmall')
      exact Or.inr (Or.inl (abs_le.mpr ⟨by linarith, by linarith⟩))
  · have hnear := abs_le.mp (abs_labelled_sub_le_of_plain hv hout)
    have hnear' := abs_le.mp (abs_labelled_sub_le_of_plain hw (h.outlying_iff.not.mp hout))
    rw [h.labelled_eq] at hnear
    exact Or.inr (Or.inr (abs_le.mpr ⟨by linarith, by linarith⟩))

end GraphCalc.Grid
