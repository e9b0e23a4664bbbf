/-
Whole doubles.  Floor and ceiling of a finite double are those of its value, and up to
53 bits one more is added to a whole double without an error.
-/
import GraphCalc.Proofs.RoundedOperations
namespace GraphCalc.Double

open Layout (double)

/-! ### Doubles with a given value -/

theorem value_ofPattern (sign : Bool) {code : ℕ} (h : code ≤ 2047 * 2 ^ 52) :
    value (ofPattern sign code) =
      if sign then -double.magnitude code else double.magnitude code := by
  rw [value, negative_ofPattern sign h, pattern_ofPattern sign h]

/-- An integer of 53 bits, scaled by a power of two, is the value of a double. -/
theorem exists_value (k exponent : ℤ) (hlt : k.natAbs < 2 ^ 53) (hlower : -1022 ≤ exponent)
    (hupper : exponent ≤ 971) : ∃ v, v.isFinite = true ∧ value v = k * 2 ^ exponent := by
  obtain ⟨code, hcode, hmagnitude⟩ := exists_magnitude exponent hlt hlower hupper
  have hle := Nat.le_of_lt hcode
  refine ⟨ofPattern (decide (k < 0)) code, ?_, ?_⟩
  · rw [isFinite_eq, pattern_ofPattern _ hle, decide_eq_true hcode]
  · rw [value_ofPattern _ hle, hmagnitude]
    rcases lt_or_ge k 0 with hneg | hnonneg
    · rw [if_pos (decide_eq_true hneg), Nat.cast_natAbs, abs_of_neg hneg, Int.cast_neg, neg_mul,
        neg_neg]
    · rw [if_neg (by rwa [decide_eq_true_eq, not_lt]), Nat.cast_natAbs, abs_of_nonneg hnonneg]

/-- A number of up to 53 bits is rounded to a finite double within the same bounds. -/
theorem Rounds.of_small {x : ℚ} {v : Float} (hx : |x| ≤ 2 ^ 52) (hv : Rounds x v) :
    v.isFinite = true ∧ |value v| ≤ 2 ^ 52 := by
  obtain ⟨upper, hupper, hvalue⟩ := exists_value (2 ^ 52) 0 (by decide) (by omega)
    (by omega)
  obtain ⟨lower, hlower, hvalue'⟩ := exists_value (-2 ^ 52) 0 (by decide) (by omega)
    (by omega)
  rw [zpow_zero, mul_one, Int.cast_pow, Int.cast_ofNat] at hvalue
  rw [zpow_zero, mul_one, Int.cast_neg, Int.cast_pow, Int.cast_ofNat] at hvalue'
  obtain ⟨hge, hle⟩ := abs_le.mp hx
  have habove := hv.le_value (pattern_le_of_isFinite hlower) (hvalue'.trans_le hge)
  have hbelow := hv.value_le (pattern_le_of_isFinite hupper) (hle.trans_eq hvalue.symm)
  refine ⟨isFinite_of_between hlower hupper habove hbelow, abs_le.mpr ⟨?_, ?_⟩⟩
  · exact hvalue'.symm.trans_le habove
  · exact hbelow.trans_eq hvalue

/-- A double whose units fill a whole number. -/
theorem value_of_units {v : Float} {n : ℕ} (hsign : negative v = false)
    (hunits : units v = n * double.unitDenominator) : value v = n := by
  have hcast : (double.units (pattern v) : ℚ) = n * double.unitDenominator := by
    exact_mod_cast hunits
  rw [value_of_positive hsign, Layout.magnitude, hcast,
    mul_div_cancel_right₀ _ (ne_of_gt double.unitDenominator_pos)]

theorem value_one : value 1.0 = 1 := by
  have hone := value_of_units (v := 1.0) (n := 1) (by decide +kernel) (by decide +kernel)
  rwa [Nat.cast_one] at hone

/-! ### Whole doubles -/

/-- The double is finite and a whole number. -/
structure Index (v : Float) (k : ℤ) : Prop where
  isFinite : v.isFinite = true
  value_eq : value v = k

section Parts
variable {v : Float}

theorem units_eq_abs_value (v : Float) : (units v : ℚ) = |value v| * double.unitDenominator := by
  rw [abs_value, Layout.magnitude_mul, units]

/-- Every double is a whole number of least units. -/
theorem exists_int_units (v : Float) : ∃ n : ℤ, value v * double.unitDenominator = n := by
  have hcount := units_eq_abs_value v
  rcases abs_choice (value v) with hvalue | hvalue
  · exact ⟨units v, by rw [Int.cast_natCast, hcount, hvalue]⟩
  · exact ⟨-units v, by rw [Int.cast_neg, Int.cast_natCast, hcount, hvalue, neg_mul, neg_neg]⟩

/-- Distinct doubles are a least unit or more apart, so no difference is rounded to zero. -/
theorem value_sub_pos {v w : Float} (hv : v.isFinite = true) (hw : w.isFinite = true)
    (h : value v < value w) : 0 < value (w - v) := by
  have hunit := double.unitDenominator_pos
  obtain ⟨m, hm⟩ := exists_int_units w
  obtain ⟨n, hn⟩ := exists_int_units v
  have hless : n < m := by
    exact_mod_cast (hn.symm.trans_lt (mul_lt_mul_of_pos_right h hunit)).trans_eq hm
  have hleast : value (ofPattern false 1) * double.unitDenominator = 1 := by
    rw [value_ofPattern false (by decide), if_neg (by decide), Layout.magnitude_mul]
    rfl
  have hapart : value (ofPattern false 1) ≤ value w - value v := by
    refine le_of_mul_le_mul_right ?_ hunit
    rw [hleast, sub_mul, hm, hn, ← Int.cast_sub, ← Int.cast_one, Int.cast_le]
    omega
  have hle := (rounds_sub hw hv).le_value (by decide +kernel) hapart
  exact (pos_of_mul_pos_left (hleast.symm ▸ one_pos) (le_of_lt hunit)).trans_le hle

theorem abs_value_eq (v : Float) : |value v| =
    wholePart v + (units v % double.unitDenominator : ℕ) / double.unitDenominator := by
  have hpos := double.unitDenominator_pos
  have hsplit : (units v : ℚ) = double.unitDenominator * wholePart v +
      (units v % double.unitDenominator : ℕ) := by
    exact_mod_cast (Nat.div_add_mod (units v) double.unitDenominator).symm
  rw [units_eq_abs_value] at hsplit
  rw [← sub_eq_iff_eq_add', eq_div_iff (ne_of_gt hpos), sub_mul, hsplit]
  ring

theorem isWhole_eq (h : v.isFinite = true) :
    isWhole v = decide (units v % double.unitDenominator = 0) := by
  rw [isWhole, h, Bool.true_and, Bool.beq_eq_decide_eq]

theorem abs_value_of_isWhole (hfinite : v.isFinite = true) (h : isWhole v = true) :
    |value v| = wholePart v := by
  rw [isWhole_eq hfinite, decide_eq_true_eq] at h
  rw [abs_value_eq, h, Nat.cast_zero, zero_div, add_zero]

theorem wholePart_lt_of_not_isWhole (hfinite : v.isFinite = true) (h : isWhole v = false) :
    (wholePart v : ℚ) < |value v| ∧ |value v| < wholePart v + 1 := by
  have hpos := double.unitDenominator_pos
  rw [isWhole_eq hfinite, decide_eq_false_iff_not] at h
  have hrest : (0 : ℚ) < (units v % double.unitDenominator : ℕ) :=
    Nat.cast_pos.mpr (Nat.pos_of_ne_zero h)
  have hrest' : ((units v % double.unitDenominator : ℕ) : ℚ) < double.unitDenominator :=
    Nat.cast_lt.mpr (Nat.mod_lt _ (Nat.cast_pos.mp hpos))
  rw [abs_value_eq]
  exact ⟨lt_add_of_pos_right _ (div_pos hrest hpos),
    add_lt_add_right ((div_lt_one hpos).mpr hrest') _⟩

/-- Doubles with a fractional part are small. -/
theorem wholePart_lt (hfinite : v.isFinite = true) (h : isWhole v = false) :
    wholePart v < 2 ^ 52 := by
  have hpart := (wholePart_lt_of_not_isWhole hfinite h).1
  have hne : value v ≠ 0 := by
    rw [← abs_pos]
    exact lt_of_le_of_lt (Nat.cast_nonneg _) hpart
  obtain ⟨mantissa, exponent, -, -, -, hlt, -, habs⟩ := exists_form hfinite hne
  rcases lt_or_ge exponent 0 with hneg | hnonneg
  · have hpow : (2 : ℚ) ^ exponent ≤ 2 ^ (-1 : ℤ) := zpow_le_zpow_right₀ (by norm_num) (by omega)
    have hmantissa : (mantissa : ℚ) < 2 ^ 53 := by exact_mod_cast hlt
    have hless : (wholePart v : ℚ) < 2 ^ 52 := by
      rw [habs] at hpart
      rw [zpow_neg, zpow_one] at hpow
      nlinarith
    exact_mod_cast hless
  · have hunits : units v = mantissa * 2 ^ exponent.toNat * double.unitDenominator := by
      have hcast := units_eq_abs_value v
      rw [habs, ← Int.toNat_of_nonneg hnonneg, zpow_natCast] at hcast
      exact_mod_cast hcast
    rw [isWhole_eq hfinite, hunits, Nat.mul_mod_left, decide_eq_true rfl] at h
    contradiction

theorem index_ofQuotient {n : ℕ} (h : n < 2 ^ 53) :
    Index (ofQuotient true n 1) (-n) ∧ Index (ofQuotient false n 1) n := by
  obtain ⟨code, hcode, hmagnitude⟩ := exists_magnitude 0 h (by omega) (by omega)
  have hle := Nat.le_of_lt hcode
  have hunits : (double.units code : ℚ) = double.inUnits n 1 := by
    rw [← Layout.magnitude_mul, hmagnitude, Layout.inUnits, Nat.cast_one, div_one, zpow_zero,
      mul_one]
  have hnearest : double.nearest n 1 = code :=
    Nat.le_antisymm (Layout.nearest_le (by decide) Nat.one_pos (le_of_eq hunits.symm))
      (Layout.le_nearest (by decide) Nat.one_pos hle (le_of_eq hunits))
  have hfinite : ∀ sign, (ofPattern sign code).isFinite = true := by
    intro sign
    rw [isFinite_eq, pattern_ofPattern _ hle, decide_eq_true hcode]
  rw [zpow_zero, mul_one] at hmagnitude
  rw [ofQuotient, ofQuotient, hnearest]
  refine ⟨⟨hfinite true, ?_⟩, ⟨hfinite false, ?_⟩⟩
  · rw [value_ofPattern _ hle, if_pos rfl, hmagnitude, Int.cast_neg, Int.cast_natCast]
  · rw [value_ofPattern _ hle, if_neg Bool.false_ne_true, hmagnitude, Int.cast_natCast]

/-- A whole double is its own floor and ceiling. -/
theorem exists_int_of_isWhole (hfinite : v.isFinite = true) (h : isWhole v = true) :
    ∃ k : ℤ, value v = k := by
  have habs := abs_value_of_isWhole hfinite h
  rcases abs_choice (value v) with hvalue | hvalue
  · exact ⟨wholePart v, by rw [Int.cast_natCast, ← habs, hvalue]⟩
  · exact ⟨-wholePart v, by rw [Int.cast_neg, Int.cast_natCast, ← habs, hvalue, neg_neg]⟩

/-- A double that is not whole lies between two whole numbers on its side of zero. -/
theorem wholePart_bounds (hfinite : v.isFinite = true) (h : isWhole v = false) :
    if negative v then -(wholePart v + 1 : ℚ) < value v ∧ value v < -wholePart v
    else wholePart v < value v ∧ value v < wholePart v + 1 := by
  obtain ⟨hlower, hupper⟩ := wholePart_lt_of_not_isWhole hfinite h
  rw [abs_value] at hlower hupper
  cases hsign : negative v with
  | true =>
      rw [if_pos rfl, value_of_negative hsign]
      exact ⟨neg_lt_neg hupper, neg_lt_neg hlower⟩
  | false =>
      rw [if_neg Bool.false_ne_true, value_of_positive hsign]
      exact ⟨hlower, hupper⟩

theorem index_floor (hfinite : v.isFinite = true) : Index (floor v) ⌊value v⌋ := by
  cases hwhole : isWhole v with
  | true =>
      obtain ⟨k, hk⟩ := exists_int_of_isWhole hfinite hwhole
      have hfloor : floor v = v := by simp [floor, hwhole]
      rw [hfloor, hk, Int.floor_intCast]
      exact ⟨hfinite, hk⟩
  | false =>
      have hsmall := wholePart_lt hfinite hwhole
      have hbounds := wholePart_bounds hfinite hwhole
      cases hsign : negative v with
      | true =>
          have hfloor : floor v = ofQuotient true (wholePart v + 1) 1 := by
            simp [floor, hfinite, hwhole, hsign]
          rw [hsign, if_pos rfl] at hbounds
          have hvalue : ⌊value v⌋ = -((wholePart v + 1 : ℕ) : ℤ) := by
            rw [Int.floor_eq_iff]
            push_cast
            constructor <;> linarith [hbounds.1, hbounds.2]
          rw [hfloor, hvalue]
          exact (index_ofQuotient (by omega)).1
      | false =>
          have hfloor : floor v = ofQuotient false (wholePart v) 1 := by
            simp [floor, hfinite, hwhole, hsign]
          rw [hsign, if_neg Bool.false_ne_true] at hbounds
          have hvalue : ⌊value v⌋ = (wholePart v : ℤ) := by
            rw [Int.floor_eq_iff, Int.cast_natCast]
            exact ⟨le_of_lt hbounds.1, hbounds.2⟩
          rw [hfloor, hvalue]
          exact (index_ofQuotient (by omega)).2

theorem index_ceil (hfinite : v.isFinite = true) : Index (ceil v) ⌈value v⌉ := by
  cases hwhole : isWhole v with
  | true =>
      obtain ⟨k, hk⟩ := exists_int_of_isWhole hfinite hwhole
      have hceil : ceil v = v := by simp [ceil, hwhole]
      rw [hceil, hk, Int.ceil_intCast]
      exact ⟨hfinite, hk⟩
  | false =>
      have hsmall := wholePart_lt hfinite hwhole
      have hbounds := wholePart_bounds hfinite hwhole
      cases hsign : negative v with
      | true =>
          have hceil : ceil v = ofQuotient true (wholePart v) 1 := by
            simp [ceil, hfinite, hwhole, hsign]
          rw [hsign, if_pos rfl] at hbounds
          have hvalue : ⌈value v⌉ = -(wholePart v : ℤ) := by
            rw [Int.ceil_eq_iff]
            push_cast
            constructor <;> linarith [hbounds.1, hbounds.2]
          rw [hceil, hvalue]
          exact (index_ofQuotient (by omega)).1
      | false =>
          have hceil : ceil v = ofQuotient false (wholePart v + 1) 1 := by
            simp [ceil, hfinite, hwhole, hsign]
          rw [hsign, if_neg Bool.false_ne_true] at hbounds
          have hvalue : ⌈value v⌉ = ((wholePart v + 1 : ℕ) : ℤ) := by
            rw [Int.ceil_eq_iff]
            push_cast
            constructor <;> linarith [hbounds.1, hbounds.2]
          rw [hceil, hvalue]
          exact (index_ofQuotient (by omega)).2

theorem isFinite_of_ceil (h : (ceil v).isFinite = true) : v.isFinite = true := by
  by_contra hinfinite
  rw [Bool.not_eq_true] at hinfinite
  have hceil : ceil v = v := by simp [ceil, hinfinite]
  rw [hceil, hinfinite] at h
  contradiction

theorem isFinite_of_floor (h : (floor v).isFinite = true) : v.isFinite = true := by
  by_contra hinfinite
  rw [Bool.not_eq_true] at hinfinite
  have hfloor : floor v = v := by simp [floor, hinfinite]
  rw [hfloor, hinfinite] at h
  contradiction

end Parts

theorem index_ofInt {k : ℤ} (h : k.natAbs < 2 ^ 53) : Index (ofInt k) k := by
  rcases lt_or_ge k 0 with hneg | hnonneg
  · have hsame : -(k.natAbs : ℤ) = k := by omega
    have hindex := (index_ofQuotient h).1
    rw [hsame] at hindex
    have hofInt : ofInt k = ofQuotient true k.natAbs 1 := by rw [ofInt, decide_eq_true hneg]
    rwa [hofInt]
  · have hsame : (k.natAbs : ℤ) = k := by omega
    have hindex := (index_ofQuotient h).2
    rw [hsame] at hindex
    have hofInt : ofInt k = ofQuotient false k.natAbs 1 := by
      rw [ofInt, decide_eq_false (Int.not_lt.mpr hnonneg)]
    rwa [hofInt]

theorem Index.truncate_eq {v : Float} {k : ℤ} (h : Index v k) : truncate v = k := by
  have hunits : units v = k.natAbs * double.unitDenominator := by
    have hcast := units_eq_abs_value v
    rw [h.value_eq, ← Int.cast_abs, ← Int.natCast_natAbs] at hcast
    exact_mod_cast hcast
  have hwhole : wholePart v = k.natAbs := by
    rw [wholePart, hunits, Nat.mul_div_cancel _ (Nat.cast_pos.mp double.unitDenominator_pos)]
  have hmagnitude := magnitude_nonneg (pattern v)
  rw [truncate, hwhole]
  cases hsign : negative v with
  | true =>
      have hle : (k : ℚ) ≤ 0 := by
        rw [← h.value_eq, value_of_negative hsign]
        exact neg_nonpos.mpr hmagnitude
      have hle' : k ≤ 0 := by exact_mod_cast hle
      rw [if_pos rfl]
      omega
  | false =>
      have hge : (0 : ℚ) ≤ k := by
        rw [← h.value_eq, value_of_positive hsign]
        exact hmagnitude
      have hge' : 0 ≤ k := by exact_mod_cast hge
      rw [if_neg Bool.false_ne_true]
      omega

theorem Index.le_iff {v w : Float} {k l : ℤ} (hv : Index v k) (hw : Index w l) :
    v ≤ w ↔ k ≤ l := by
  rw [le_iff_value (pattern_le_of_isFinite hv.isFinite) (pattern_le_of_isFinite hw.isFinite),
    hv.value_eq, hw.value_eq, Int.cast_le]

/-- The next whole number. -/
theorem Index.add_one {v : Float} {k : ℤ} (h : Index v k) (hlt : k.natAbs ≤ 2 ^ 52) :
    Index (v + 1.0) (k + 1) := by
  have hone : (1.0 : Float).isFinite = true := by decide +kernel
  obtain ⟨w, hw, hvalue⟩ := exists_value (k + 1) 0 (by omega) (by omega) (by omega)
  have hsum := rounds_add h.isFinite hone
  rw [h.value_eq, value_one] at hsum
  rw [zpow_zero, mul_one, Int.cast_add, Int.cast_one] at hvalue
  have hexact := hsum.value_eq (pattern_le_of_isFinite hw) hvalue.symm
  have hfinite : (v + 1.0).isFinite = true := isFinite_of_value_eq (hexact.trans hvalue.symm) hw
  have hsucc : value (v + 1.0) = ((k + 1 : ℤ) : ℚ) := hexact.trans (by push_cast; rfl)
  exact Index.mk hfinite hsucc

/-- Doubles to which one can be added without a change are whole. -/
theorem isWhole_of_add_one {v : Float} (hfinite : v.isFinite = true)
    (hstill : ceil v + 1.0 = ceil v) : isWhole v = true := by
  by_contra hwhole
  rw [Bool.not_eq_true] at hwhole
  have hsmall := wholePart_lt hfinite hwhole
  have hpart := (wholePart_lt_of_not_isWhole hfinite hwhole).2
  have hindex := index_ceil hfinite
  have hcast : (wholePart v : ℚ) + 1 ≤ 2 ^ 52 := by exact_mod_cast hsmall
  obtain ⟨hlower, hupper⟩ := abs_lt.mp (hpart.trans_le hcast)
  have hceil : ⌈value v⌉ ≤ 2 ^ 52 := Int.ceil_le.mpr (by exact_mod_cast hupper.le)
  have hfloor : -2 ^ 52 < ⌈value v⌉ := Int.lt_ceil.mpr (by exact_mod_cast hlower)
  have hnext := (hindex.add_one (by omega)).value_eq
  rw [hstill, hindex.value_eq, Int.cast_inj] at hnext
  omega

end GraphCalc.Double
