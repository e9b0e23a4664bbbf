/-
Factorials of whole numbers.  The negative ones have none, and all the others have
one, which may be infinite.
-/
import GraphCalc.Gamma
import GraphCalc.Proofs.DoubleBits
namespace GraphCalc

theorem isNaN_neg {v : Float} (h : v.isNaN = false) : (-v).isNaN = false := by
  have hnumber : Double.pattern v ≤ 2047 * 2 ^ 52 := by
    rw [Double.isNaN_eq] at h
    exact Nat.le_of_not_lt (of_decide_eq_false h)
  rw [Double.isNaN_eq, Double.pattern_neg hnumber, ← Double.isNaN_eq, h]

section Whole
variable {v : Float} (h : Double.isWhole v = true)
include h

theorem pattern_lt_of_isWhole : Double.pattern v < 2047 * 2 ^ 52 := by
  rw [Double.isWhole, Bool.and_eq_true, Double.isFinite_eq, decide_eq_true_eq] at h
  exact h.1

theorem isNaN_of_isWhole : v.isNaN = false := by
  rw [Double.isNaN_eq]
  exact decide_eq_false (Nat.not_lt_of_gt (pattern_lt_of_isWhole h))

theorem isWhole_neg : Double.isWhole (-v) = true := by
  have hpattern := Double.pattern_neg (Nat.le_of_lt (pattern_lt_of_isWhole h))
  rw [Double.isWhole, Double.isFinite_eq, Double.units, hpattern, ← Double.units,
    ← Double.isFinite_eq]
  exact h

/-- A negative whole number has no factorial. -/
theorem isNaN_factorial_of_negative (hv : v < 0.0) : (factorial v).isNaN = true := by
  have hnumber := Nat.le_of_lt (pattern_lt_of_isWhole h)
  have hlimit : ¬ greatestFactorial < v :=
    Double.not_lt_of_negative (by decide +kernel) ((Double.lt_zero_iff hnumber).mp hv).1
      (by decide +kernel) hnumber
  rw [factorial, if_neg (Bool.eq_false_iff.mp (isNaN_of_isWhole h)), if_neg hlimit, if_pos hv,
    if_pos h]
  decide +kernel

/-- Every other whole number has one. -/
theorem isNaN_factorial_of_nonneg (hv : ¬ v < 0.0) : (factorial v).isNaN = false := by
  rw [factorial, if_neg (Bool.eq_false_iff.mp (isNaN_of_isWhole h)), if_neg hv, if_pos h]
  split
  · decide +kernel
  · have hle : Layout.double.nearest (product (Double.wholePart v)) 1 ≤ 2047 * 2 ^ 52 :=
      Nat.min_le_left _ _
    rw [Double.ofQuotient, Double.isNaN_eq, Double.pattern_ofPattern _ hle]
    exact decide_eq_false (Nat.not_lt_of_le hle)

/-- So has the magnitude of a negative one, and its opposite is a number. -/
theorem isNaN_neg_factorial (hv : v < 0.0) : (-factorial (-v)).isNaN = false := by
  have hnumber := Nat.le_of_lt (pattern_lt_of_isWhole h)
  have hnegative := ((Double.lt_zero_iff hnumber).mp hv).1
  have hmagnitude : ¬ -v < 0.0 := by
    rw [Double.lt_zero_iff ((Double.pattern_neg hnumber).trans_le hnumber),
      Double.negative_neg hnumber, hnegative]
    exact fun hcontra => Bool.false_ne_true hcontra.1
  exact isNaN_neg (isNaN_factorial_of_nonneg (isWhole_neg h) hmagnitude)

end Whole

end GraphCalc
