/-
The text of a result.  It is a minus sign, for a negative number that is not zero,
and the text of the magnitude, which is in one of three notations; and each of the
three is read as one number.
-/
import GraphCalc.Display
import GraphCalc.Proofs.PrintedText
import GraphCalc.Proofs.RoundedDoubles
namespace GraphCalc.Display

open Layout (double)

/-! ### The notations -/

/-- The pattern of `10 ^ (-10)`. -/
def lowerLimit : ℕ :=
  0x3DDB7CDFD9D7BDBB

/-- The pattern of `10 ^ 12`. -/
def upperLimit : ℕ :=
  0x426D1A94A2000000

/-- The magnitudes in exponential notation. -/
def Powered (code : ℕ) : Prop :=
  upperLimit ≤ code ∨ 0 < code ∧ code < lowerLimit

/-- The magnitudes without fractional part. -/
def Whole (code : ℕ) : Prop :=
  double.units code % double.unitDenominator = 0

instance (code : ℕ) : Decidable (Powered code) :=
  inferInstanceAs (Decidable (_ ∨ _))

instance (code : ℕ) : Decidable (Whole code) :=
  inferInstanceAs (Decidable (_ = _))

/-- The sign and the digits of a power of ten. -/
def powerText (power : ℤ) : List Char :=
  (if power < 0 then '-' else '+') :: numeral power.natAbs

/-- The first digit, and the others after a point. -/
def mantissaText (d : Decimal) : List Char :=
  (numeral d.coefficient).take 1 ++ '.' :: (numeral d.coefficient).drop 1

/-- Exponential notation with a sign on every exponent. -/
def poweredText (d : Decimal) : List Char :=
  mantissaText d ++ 'e' :: powerText (d.exponent + 6)

def magnitudeText (code : ℕ) : List Char :=
  if Powered code then poweredText (Double.roundedTo 7 code)
  else if Whole code then numeral (double.units code / double.unitDenominator)
  else (double.shortest ((Double.roundedTo 12 code).pattern double)).positional

/-! ### Exponential notation -/

theorem scientific_eq {d : Decimal} (hle : 10 ^ 6 ≤ d.coefficient)
    (hlt : d.coefficient < 10 ^ 7) :
    d.scientific = mantissaText d ++ 'e' :: integerNumeral (d.exponent + 6) := by
  have hlength := length_numeral_eq hle hlt
  have hpower : d.exponent + (((numeral d.coefficient).length : ℤ) - 1) = d.exponent + 6 := by
    rw [hlength]
    rfl
  rw [Decimal.scientific, hpower, mantissaText]
  match hnumeral : numeral d.coefficient with
  | [] => rw [hnumeral, List.length_nil] at hlength; omega
  | [_] => rw [hnumeral, List.length_singleton] at hlength; omega
  | first :: second :: more => rfl

theorem ne_exponent_of_isDigit {c : Char} (h : c.isDigit = true) : c ≠ 'e' := by
  intro heq
  rw [heq] at h
  contradiction

theorem ne_exponent_of_mem_mantissaText {d : Decimal} {c : Char} (h : c ∈ mantissaText d) :
    c ≠ 'e' := by
  rw [mantissaText, List.mem_append, List.mem_cons] at h
  rcases h with hfirst | rfl | hmore
  · exact ne_exponent_of_isDigit (isDigit_of_mem_numeral (List.mem_of_mem_take hfirst))
  · decide
  · exact ne_exponent_of_isDigit (isDigit_of_mem_numeral (List.mem_of_mem_drop hmore))

theorem ne_exponent_of_mem_signed {negative : Bool} {text : List Char}
    (h : ∀ c ∈ text, c ≠ 'e') : ∀ c ∈ signed negative text, c ≠ 'e' := by
  cases negative with
  | false => exact h
  | true =>
      intro c hc
      rcases List.mem_cons.mp hc with rfl | hmem
      · decide
      · exact h c hmem

/-- Only the sign of the exponent is added. -/
theorem exponential_of_scientificPlaces {places : ℕ} {v : Float} {mantissa : List Char}
    {power : ℤ} (h : Double.scientificPlaces places v = mantissa ++ 'e' :: integerNumeral power)
    (hmantissa : ∀ c ∈ mantissa, c ≠ 'e') :
    exponential places v = mantissa ++ 'e' :: powerText power := by
  have htake : (mantissa ++ 'e' :: integerNumeral power).takeWhile (fun c => c != 'e') =
      mantissa :=
    takeWhile_front (fun c hc => by simpa using hmantissa c hc) (by simp)
  simp only [exponential, h, htake, List.drop_left]
  by_cases hnegative : power < 0
  · simp [integerNumeral, powerText, hnegative]
  · obtain ⟨first, more, hnumeral⟩ := List.exists_cons_of_ne_nil (numeral_ne_nil power.natAbs)
    have hdigit := isDigit_of_mem_numeral (hnumeral ▸ List.mem_cons_self : first ∈ numeral _)
    have hne : first ≠ '-' := fun heq => by rw [heq] at hdigit; contradiction
    simp only [integerNumeral, powerText, hnegative, if_false, hnumeral]
    split
    · next heq => exact absurd (List.cons.inj (List.cons.inj heq).2).1 hne
    · next heq => rw [(List.cons.inj heq).2]
    · next hother => exact absurd rfl (hother _)

theorem scientificPlaces_eq {v : Float} (h : v.isFinite = true)
    (hpos : 0 < Double.pattern v) (places : ℕ) :
    Double.scientificPlaces places v = signed (Double.negative v)
      (Double.roundedTo (places + 1) (Double.pattern v)).scientific := by
  have hzero : Double.units v ≠ 0 := Nat.ne_of_gt (double.units_pos hpos)
  simp only [Double.scientificPlaces, Double.textWith, Double.isNaN_of_isFinite h, h, hzero,
    Bool.false_eq_true, if_false, if_true]
  rfl

/-- The sign of the number stands before its mantissa. -/
theorem exponential_of_scientific {places : ℕ} {v : Float} {mantissa : List Char} {power : ℤ}
    (h : v.isFinite = true) (hpos : 0 < Double.pattern v)
    (hscientific : (Double.roundedTo (places + 1) (Double.pattern v)).scientific =
      mantissa ++ 'e' :: integerNumeral power) (hmantissa : ∀ c ∈ mantissa, c ≠ 'e') :
    exponential places v = signed (Double.negative v) (mantissa ++ 'e' :: powerText power) := by
  have hplaces := scientificPlaces_eq h hpos places
  rw [hscientific, ← signed_append] at hplaces
  rw [← signed_append]
  exact exponential_of_scientificPlaces hplaces (ne_exponent_of_mem_signed hmantissa)

theorem exponential_eq {v : Float} (h : v.isFinite = true) (hpos : 0 < Double.pattern v) :
    exponential 6 v =
      signed (Double.negative v) (poweredText (Double.roundedTo 7 (Double.pattern v))) := by
  obtain ⟨hle, hlt⟩ := Double.roundedTo_coefficient (by decide : 0 < 7) hpos
  exact exponential_of_scientific h hpos (scientific_eq hle hlt)
    (fun c => ne_exponent_of_mem_mantissaText)

/-! ### The classes of magnitudes -/

section Limits
variable {v : Float}

theorem magnitude_limits (h : v.isFinite = true) :
    Double.negative v.abs = false ∧ Double.pattern v.abs = Double.pattern v := by
  have hle := Nat.le_of_lt (Double.pattern_lt_top h)
  rw [Double.abs_eq hle]
  exact ⟨Double.negative_ofPattern false hle, Double.pattern_ofPattern false hle⟩

/-- The limits as doubles. -/
theorem limit_parts : (Double.negative 1e12 = false ∧ Double.pattern 1e12 = upperLimit) ∧
    Double.negative 1e-10 = false ∧ Double.pattern 1e-10 = lowerLimit := by
  decide +kernel

/-- A magnitude is compared with a positive limit as their patterns are. -/
theorem abs_lt_iff {limit : Float} (hsign : Double.negative limit = false)
    (hnumber : Double.pattern limit ≤ 2047 * 2 ^ 52) (h : v.isFinite = true) :
    (v.abs < limit ↔ Double.pattern v < Double.pattern limit) ∧
      (limit ≤ v.abs ↔ Double.pattern limit ≤ Double.pattern v) := by
  obtain ⟨hnegative, hpattern⟩ := magnitude_limits h
  have hfinite : Double.pattern v.abs ≤ 2047 * 2 ^ 52 := by
    rw [hpattern]
    exact Nat.le_of_lt (Double.pattern_lt_top h)
  rw [Double.lt_iff hnegative hsign hfinite hnumber,
    Double.le_iff hsign hnegative hnumber hfinite, hpattern]
  exact ⟨Iff.rfl, Iff.rfl⟩

theorem abs_upperLimit (h : v.isFinite = true) :
    (v.abs < 1e12 ↔ Double.pattern v < upperLimit) ∧
      (1e12 ≤ v.abs ↔ upperLimit ≤ Double.pattern v) := by
  obtain ⟨⟨hsign, hlimit⟩, -⟩ := limit_parts
  rw [← hlimit]
  exact abs_lt_iff hsign (by rw [hlimit]; decide) h

theorem abs_lt_lowerLimit (h : v.isFinite = true) :
    v.abs < 1e-10 ↔ Double.pattern v < lowerLimit := by
  obtain ⟨-, hsign, hlimit⟩ := limit_parts
  rw [← hlimit]
  exact (abs_lt_iff hsign (by rw [hlimit]; decide) h).1

theorem isPowered_iff (h : v.isFinite = true) :
    (decide (1e12 ≤ v.abs) || (decide (v.abs < 1e-10) && v != 0.0)) = true ↔
      Powered (Double.pattern v) := by
  have hzero : (v != 0.0) = true ↔ 0 < Double.pattern v := by
    rw [bne, Double.beq_zero_eq (Nat.le_of_lt (Double.pattern_lt_top h))]
    simp [Nat.pos_iff_ne_zero]
  rw [Bool.or_eq_true, Bool.and_eq_true, decide_eq_true_eq, decide_eq_true_eq, hzero,
    (abs_upperLimit h).2, abs_lt_lowerLimit h, Powered, And.comm]

theorem isWhole_iff (h : v.isFinite = true) :
    Double.isWhole v = true ↔ Whole (Double.pattern v) := by
  rw [Double.isWhole, h, Bool.true_and, beq_iff_eq]
  rfl

end Limits

theorem magnitude_upperLimit : double.magnitude upperLimit = 10 ^ (12 : ℤ) := by
  have hle := double.magnitude_le_of upperLimit (10 ^ 12) (by decide : 0 < 1)
    (by decide +kernel)
  have hge := double.le_magnitude_of upperLimit (10 ^ 12) (by decide : 0 < 1)
    (by decide +kernel)
  rw [Nat.cast_one, div_one, Nat.cast_pow, Nat.cast_ofNat] at hle hge
  rw [zpow_ofNat]
  exact le_antisymm hle hge

theorem not_whole_pos {code : ℕ} (h : ¬ Whole code) : 0 < code := by
  refine Nat.pos_of_ne_zero (fun hzero => h ?_)
  rw [hzero, Whole, Layout.units_zero, Nat.zero_mod]

theorem pattern_roundedTo_le_upperLimit {digits code : ℕ} (hdigits : 0 < digits)
    (hpos : 0 < code) (hlt : code < upperLimit) :
    (Double.roundedTo digits code).pattern double ≤ upperLimit := by
  have hmagnitude := double.magnitude_strictMono hlt
  rw [magnitude_upperLimit] at hmagnitude
  refine Decimal.pattern_le ?_
  rw [magnitude_upperLimit]
  rcases Decimal.value_significant_le hdigits (double.units_pos hpos)
    double.unitDenominator_natPos hmagnitude with heq | hle
  · exact le_of_eq heq
  · have hgrid : (0 : ℚ) < 10 ^ ((12 : ℤ) - digits) := by positivity
    exact le_trans hle (by linarith)

/-! ### The three notations of a number -/

theorem integerNumeral_truncate {v : Float} (hwhole : Whole (Double.pattern v)) :
    integerNumeral (Double.truncate v) =
      signed (Double.negative v && decide (0 < Double.pattern v))
        (numeral (double.units (Double.pattern v) / double.unitDenominator)) := by
  obtain ⟨part, hpart⟩ :
      ∃ part, part = double.units (Double.pattern v) / double.unitDenominator := ⟨_, rfl⟩
  have htruncate : Double.truncate v =
      if Double.negative v then -(part : ℤ) else part := by
    rw [hpart]
    rfl
  rw [htruncate, ← hpart]
  cases hnegative : Double.negative v with
  | false => simp [integerNumeral, signed]
  | true =>
      by_cases hpos : 0 < Double.pattern v
      · have hunits := double.units_pos hpos
        have hdvd := Nat.div_add_mod (double.units (Double.pattern v)) double.unitDenominator
        rw [hwhole, ← hpart] at hdvd
        have hpart' : part ≠ 0 := by
          intro hzero
          rw [hzero, Nat.mul_zero] at hdvd
          exact Nat.ne_of_lt hunits hdvd
        simpa [integerNumeral, signed, hpos] using hpart'
      · have hzero : part = 0 := by
          rw [hpart, Nat.eq_zero_of_not_pos hpos, Layout.units_zero, Nat.zero_div]
        simp [integerNumeral, signed, hpos, hzero]

theorem plainText_roundSignificant {digits : ℕ} (hdigits : 0 < digits) {v : Float}
    (h : v.isFinite = true) (hpos : 0 < Double.pattern v) (hlt : Double.pattern v < upperLimit) :
    Double.plainText (Double.roundSignificant digits v) = signed (Double.negative v)
      (double.shortest
        ((Double.roundedTo digits (Double.pattern v)).pattern double)).positional := by
  have hle := pattern_roundedTo_le_upperLimit hdigits hpos hlt
  have htop : (Double.roundedTo digits (Double.pattern v)).pattern double < 2047 * 2 ^ 52 :=
    Nat.lt_of_le_of_lt hle (by decide)
  have hzero : (v == 0) = false := by
    have hliteral : (0 : Float) = 0.0 := by decide +kernel
    rw [hliteral, Double.beq_zero_eq (Nat.le_of_lt (Double.pattern_lt_top h))]
    exact decide_eq_false (Nat.ne_of_gt hpos)
  have hround : Double.roundSignificant digits v = Double.ofPattern (Double.negative v)
      ((Double.roundedTo digits (Double.pattern v)).pattern double) := by
    rw [Double.roundSignificant, hzero, h, Nat.max_eq_right hdigits]
    rfl
  have hpattern := Double.pattern_ofPattern (Double.negative v) (Nat.le_of_lt htop)
  have hfinite : (Double.ofPattern (Double.negative v)
      ((Double.roundedTo digits (Double.pattern v)).pattern double)).isFinite = true := by
    rw [Double.isFinite_eq, hpattern]
    exact decide_eq_true htop
  rw [hround, Double.plainText_eq hfinite, Double.negative_ofPattern _ (Nat.le_of_lt htop),
    Double.shortest, hpattern]

/-- The text of a number is that of its magnitude, with its sign. -/
theorem number_eq {v : Float} (h : v.isFinite = true) :
    number v = signed (Double.negative v && decide (0 < Double.pattern v))
      (magnitudeText (Double.pattern v)) := by
  simp only [number, h, Bool.not_true, Bool.false_eq_true, if_false, isPowered_iff h,
    isWhole_iff h, magnitudeText]
  split
  · next hpowered =>
      have hpos : 0 < Double.pattern v := by
        rcases hpowered with hlarge | hsmall
        · exact Nat.lt_of_lt_of_le (by decide) hlarge
        · exact hsmall.1
      rw [exponential_eq h hpos, decide_eq_true hpos, Bool.and_true]
  split
  · next hwhole => exact integerNumeral_truncate hwhole
  · next hpowered hwhole =>
      have hpos := not_whole_pos hwhole
      have hlt : Double.pattern v < upperLimit :=
        Nat.lt_of_not_le (fun hle => hpowered (Or.inl hle))
      rw [plainText_roundSignificant (by decide) h hpos hlt, decide_eq_true hpos, Bool.and_true]

end GraphCalc.Display
