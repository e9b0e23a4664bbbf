/-
Numerals and their values.  The digits of a number read back to it, zeros before
them count nothing and zeros behind them count as powers of ten, and positional
notation reads back to the decimal it was written from.
-/
import GraphCalc.Decimal.Notation
import GraphCalc.Decimal.Reader
import Mathlib.Algebra.Group.Nat.Defs
namespace GraphCalc

/-! ### The front of a text -/

section Front
variable {p : Char → Bool} {front rest : List Char}

theorem takeWhile_front (h : ∀ c ∈ front, p c = true) (hrest : ∀ c ∈ rest.head?, p c = false) :
    (front ++ rest).takeWhile p = front := by
  rw [List.takeWhile_append_of_pos h]
  cases rest with
  | nil => simp
  | cons c rest => simp [hrest c rfl]

theorem dropWhile_front (h : ∀ c ∈ front, p c = true) (hrest : ∀ c ∈ rest.head?, p c = false) :
    (front ++ rest).dropWhile p = rest := by
  rw [List.dropWhile_append_of_pos h]
  cases rest with
  | nil => simp
  | cons c rest => simp [hrest c rfl]

end Front

/-! ### Digits -/

theorem numeralValue_eq (digits : List Char) :
    numeralValue digits = Nat.ofDigitChars 10 digits 0 :=
  rfl

@[simp]
theorem numeralValue_numeral (n : Nat) : numeralValue (numeral n) = n := by
  rw [numeralValue_eq, numeral, Nat.ofDigitChars_ten_toDigits]

theorem isDigit_of_mem_numeral {n : Nat} {c : Char} (h : c ∈ numeral n) :
    c.isDigit = true :=
  Nat.isDigit_of_mem_toDigits (by decide) (by decide) h

theorem numeral_ne_nil (n : Nat) : numeral n ≠ [] :=
  Nat.toDigits_ne_nil

theorem length_numeral_pos (n : Nat) : 0 < (numeral n).length :=
  Nat.length_toDigits_pos

theorem exists_length_numeral (n : Nat) : ∃ k : Nat, (numeral n).length = k + 1 :=
  Nat.exists_eq_succ_of_ne_zero (Nat.ne_of_gt (length_numeral_pos n))

theorem length_numeral_le_iff {n k : Nat} (h : 0 < k) :
    (numeral n).length ≤ k ↔ n < 10 ^ k :=
  Nat.length_toDigits_le_iff (by decide) h

theorem lt_pow_length_numeral (n : Nat) : n < 10 ^ (numeral n).length :=
  (length_numeral_le_iff (length_numeral_pos n)).mp (Nat.le_refl _)

theorem pow_length_numeral_le {n : Nat} (h : 0 < n) :
    10 ^ ((numeral n).length - 1) ≤ n := by
  by_cases hone : (numeral n).length = 1
  · rw [hone]
    exact h
  have hpos := length_numeral_pos n
  have hlong := mt (length_numeral_le_iff (by omega : 0 < (numeral n).length - 1)).mpr
    (by omega : ¬ (numeral n).length ≤ (numeral n).length - 1)
  exact Nat.le_of_not_lt hlong

/-- The digits of a number are counted by its decade. -/
theorem length_numeral_eq {n k : Nat} (hle : 10 ^ k ≤ n) (hlt : n < 10 ^ (k + 1)) :
    (numeral n).length = k + 1 := by
  have hupper := (length_numeral_le_iff (Nat.succ_pos k)).mpr hlt
  have hlower := lt_pow_length_numeral n
  have hpow : 10 ^ k < 10 ^ (numeral n).length := Nat.lt_of_le_of_lt hle hlower
  have hlength := (Nat.pow_lt_pow_iff_right (by decide : 1 < 10)).mp hpow
  omega

theorem numeralValue_zeros_append (count : Nat) (digits : List Char) :
    numeralValue (List.replicate count '0' ++ digits) = numeralValue digits := by
  simp [numeralValue_eq, Nat.ofDigitChars_append]

/-- Zeros behind the digits of a positive number give the digits of its products
with powers of ten. -/
theorem numeral_append_zeros {n : Nat} (h : 0 < n) (count : Nat) :
    numeral n ++ List.replicate count '0' = numeral (n * 10 ^ count) := by
  induction count with
  | zero => simp
  | succ count ih =>
      have hpos : 0 < n * 10 ^ count := Nat.mul_pos h (Nat.pow_pos (by decide))
      have hdigit := Nat.toDigits_append_toDigits (by decide : 1 < 10) hpos
        (by decide : 0 < 10)
      rw [List.replicate_succ', ← List.append_assoc, ih, Nat.pow_succ, ← Nat.mul_assoc,
        Nat.mul_comm _ 10]
      exact hdigit

theorem isDigit_of_mem_zeros {count : Nat} {c : Char} (h : c ∈ List.replicate count '0') :
    c.isDigit = true := by
  rw [List.eq_of_mem_replicate h]
  decide

/-! ### Reading -/

namespace Decimal

/-- What stands behind the digits of a mantissa does not go on with them. -/
def EndsDigits (rest : List Char) : Prop :=
  ∀ c ∈ rest.head?, c.isDigit = false ∧ c ≠ '.'

theorem endsDigits_nil : EndsDigits [] := by
  simp [EndsDigits]

/-- A mantissa without a point. -/
theorem read?_whole {whole rest : List Char} (hne : whole ≠ [])
    (hwhole : ∀ c ∈ whole, c.isDigit = true) (hrest : EndsDigits rest) :
    read? (whole ++ rest) =
      (readExponent? rest).map (fun exponent => ⟨numeralValue whole, exponent⟩) := by
  have hends : ∀ c ∈ rest.head?, c.isDigit = false := fun c hc => (hrest c hc).1
  have hempty : whole.isEmpty = false := by simpa using hne
  simp only [read?, takeWhile_front hwhole hends, dropWhile_front hwhole hends]
  split
  · next rest =>
      exact absurd rfl (hrest '.' rfl).2
  · simp [hempty]

/-- Digits with a point between them, and what stands behind them. -/
theorem read?_fraction {whole fraction rest : List Char} (hwhole : ∀ c ∈ whole, c.isDigit = true)
    (hfraction : ∀ c ∈ fraction, c.isDigit = true)
    (hrest : ∀ c ∈ rest.head?, c.isDigit = false) :
    read? (whole ++ '.' :: (fraction ++ rest)) =
      if whole ++ fraction = [] then none
      else (readExponent? rest).map (fun exponent =>
        ⟨numeralValue (whole ++ fraction), exponent - fraction.length⟩) := by
  have hpoint : ∀ c ∈ ('.' :: (fraction ++ rest)).head?, c.isDigit = false := by
    intro c hc
    obtain rfl : '.' = c := by simpa using hc
    decide
  simp only [read?, takeWhile_front hwhole hpoint, dropWhile_front hwhole hpoint,
    takeWhile_front hfraction hrest, dropWhile_front hfraction hrest, List.append_eq_nil_iff,
    Bool.and_eq_true, List.isEmpty_iff]

/-- A mantissa with a point behind its first digits. -/
theorem read?_point {whole fraction rest : List Char} (hne : whole ≠ [])
    (hwhole : ∀ c ∈ whole, c.isDigit = true) (hfraction : ∀ c ∈ fraction, c.isDigit = true)
    (hrest : EndsDigits rest) :
    read? (whole ++ '.' :: (fraction ++ rest)) =
      (readExponent? rest).map (fun exponent =>
        ⟨numeralValue (whole ++ fraction), exponent - fraction.length⟩) := by
  rw [read?_fraction hwhole hfraction (fun c hc => (hrest c hc).1), if_neg (by simp [hne])]

theorem readExponent?_nil : readExponent? [] = some 0 :=
  rfl

theorem readExponent?_negative {digits : List Char} (hne : digits ≠ [])
    (hdigits : ∀ c ∈ digits, c.isDigit = true) :
    readExponent? ('e' :: '-' :: digits) = some (-(numeralValue digits : Int)) := by
  have hall : digits.all Char.isDigit = true := List.all_eq_true.mpr hdigits
  have hempty : digits.isEmpty = false := by simpa using hne
  simp [readExponent?, hall, hempty]

theorem readExponent?_positive {digits : List Char} (hne : digits ≠ [])
    (hdigits : ∀ c ∈ digits, c.isDigit = true) :
    readExponent? ('e' :: '+' :: digits) = some (numeralValue digits : Int) := by
  have hall : digits.all Char.isDigit = true := List.all_eq_true.mpr hdigits
  have hempty : digits.isEmpty = false := by simpa using hne
  simp [readExponent?, hall, hempty]

/-! ### Positional notation -/

/-- The same number with its power of ten written out. -/
def writtenOut (d : Decimal) : Decimal :=
  if 0 ≤ d.exponent then ⟨d.coefficient * 10 ^ d.exponent.toNat, 0⟩ else d

theorem positional_of_nonneg {d : Decimal} (h : 0 ≤ d.exponent) :
    d.positional = numeral (d.coefficient * 10 ^ d.exponent.toNat) := by
  by_cases hzero : d.coefficient = 0
  · simp [positional, h, hzero]
  · simp [positional, h, hzero, numeral_append_zeros (Nat.pos_of_ne_zero hzero)]

/-- Below the unit there are digits before the point and behind it. -/
theorem positional_of_neg {d : Decimal} (h : d.exponent < 0) :
    ∃ whole fraction : List Char,
      d.positional = whole ++ '.' :: fraction ∧ whole ≠ [] ∧
      (∀ c ∈ whole, c.isDigit = true) ∧ (∀ c ∈ fraction, c.isDigit = true) ∧
      numeralValue (whole ++ fraction) = d.coefficient ∧
      (fraction.length : Int) = -d.exponent := by
  have hpos := length_numeral_pos d.coefficient
  by_cases hsmall : ((numeral d.coefficient).length : Int) + d.exponent ≤ 0
  · refine ⟨['0'], List.replicate
      (-(((numeral d.coefficient).length : Int) + d.exponent)).toNat '0' ++
        numeral d.coefficient, ?_, by simp, List.all_eq_true.mp (by decide), ?_, ?_, ?_⟩
    · simp [positional, Int.not_le_of_gt h, hsmall]
    · intro c hc
      rcases List.mem_append.mp hc with hzero | hdigit
      · exact isDigit_of_mem_zeros hzero
      · exact isDigit_of_mem_numeral hdigit
    · rw [← List.append_assoc, ← List.replicate_one, List.replicate_append_replicate,
        numeralValue_zeros_append, numeralValue_numeral]
    · rw [List.length_append, List.length_replicate]
      omega
  · refine ⟨(numeral d.coefficient).take
        (((numeral d.coefficient).length : Int) + d.exponent).toNat,
      (numeral d.coefficient).drop
        (((numeral d.coefficient).length : Int) + d.exponent).toNat, ?_, ?_, ?_, ?_, ?_, ?_⟩
    · simp [positional, Int.not_le_of_gt h, hsmall]
    · intro hnil
      have hlength := congrArg List.length hnil
      rw [List.length_take, List.length_nil] at hlength
      omega
    · exact fun c hc => isDigit_of_mem_numeral (List.mem_of_mem_take hc)
    · exact fun c hc => isDigit_of_mem_numeral (List.mem_of_mem_drop hc)
    · rw [List.take_append_drop, numeralValue_numeral]
    · rw [List.length_drop]
      omega

/-- Positional notation reads back to the number it was written from. -/
theorem read?_positional (d : Decimal) : read? d.positional = some d.writtenOut := by
  by_cases hwhole : 0 ≤ d.exponent
  · rw [positional_of_nonneg hwhole, ← List.append_nil (numeral _),
      read?_whole (numeral_ne_nil _) (fun c => isDigit_of_mem_numeral) endsDigits_nil]
    simp [readExponent?_nil, writtenOut, hwhole]
  · obtain ⟨whole, fraction, heq, hne, hdigits, hfraction, hvalue, hlength⟩ :=
      positional_of_neg (Int.lt_of_not_ge hwhole)
    rw [heq, ← List.append_nil fraction, read?_point hne hdigits hfraction endsDigits_nil,
      hvalue, hlength]
    simp [readExponent?_nil, writtenOut, hwhole]

theorem positional_ne_nil (d : Decimal) : d.positional ≠ [] := by
  by_cases hwhole : 0 ≤ d.exponent
  · rw [positional_of_nonneg hwhole]
    exact numeral_ne_nil _
  · obtain ⟨whole, fraction, heq, -⟩ := positional_of_neg (Int.lt_of_not_ge hwhole)
    simp [heq]

theorem isDigit_or_point_of_mem_positional {d : Decimal} {c : Char}
    (h : c ∈ d.positional) : c.isDigit = true ∨ c = '.' := by
  by_cases hwhole : 0 ≤ d.exponent
  · rw [positional_of_nonneg hwhole] at h
    exact Or.inl (isDigit_of_mem_numeral h)
  · obtain ⟨whole, fraction, heq, -, hdigits, hfraction, -⟩ :=
      positional_of_neg (Int.lt_of_not_ge hwhole)
    rw [heq, List.mem_append, List.mem_cons] at h
    rcases h with hmem | rfl | hmem
    · exact Or.inl (hdigits c hmem)
    · exact Or.inr rfl
    · exact Or.inl (hfraction c hmem)

end Decimal

end GraphCalc
