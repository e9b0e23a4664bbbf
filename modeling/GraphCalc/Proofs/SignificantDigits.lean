/-
Rounding to significant digits.  The decade of a number decides the grid, and the
rounded coefficient keeps the decade or is the first of the next one.  A number
that is as near to the rounded decimal as the original one is rounded to the same
decimal, except below a power of ten, where the grid is finer.
-/
import GraphCalc.Proofs.DecimalValues
namespace GraphCalc.Decimal

/-! ### Decades -/

/-- The power of ten of the first digit is the decade of the quotient. -/
theorem leadingExponent_spec {n d : ℕ} (hn : 0 < n) (hd : 0 < d) :
    (10 : ℚ) ^ leadingExponent n d ≤ (n : ℚ) / d ∧
      (n : ℚ) / d < 10 ^ (leadingExponent n d + 1) := by
  have hdpos : (0 : ℚ) < d := by exact_mod_cast hd
  rw [leadingExponent]
  by_cases hlarge : d ≤ n
  · rw [if_pos hlarge]
    obtain ⟨k, hk⟩ := exists_length_numeral (n / d)
    have hlower := pow_length_numeral_le (Nat.div_pos hlarge hd)
    have hupper := lt_pow_length_numeral (n / d)
    rw [hk, Nat.add_sub_cancel] at hlower
    rw [hk, Nat.div_lt_iff_lt_mul hd] at hupper
    rw [Nat.le_div_iff_mul_le hd] at hlower
    have hexponent : (((k + 1 : ℕ) : ℤ) - 1) = (k : ℤ) := by omega
    rw [hk, hexponent, le_div_iff₀ hdpos, div_lt_iff₀ hdpos, zpow_natCast]
    have hsucc : (10 : ℚ) ^ ((k : ℤ) + 1) = 10 ^ (k + 1) := by
      rw [← zpow_natCast]
      rfl
    rw [hsucc]
    exact ⟨by exact_mod_cast hlower, by exact_mod_cast hupper⟩
  · rw [if_neg hlarge]
    have hratio : 0 < (d - 1) / n := Nat.div_pos (by omega) hn
    obtain ⟨k, hk⟩ := exists_length_numeral ((d - 1) / n)
    have hlower := pow_length_numeral_le hratio
    have hupper := lt_pow_length_numeral ((d - 1) / n)
    rw [hk, Nat.add_sub_cancel, Nat.le_div_iff_mul_le hn] at hlower
    rw [hk, Nat.div_lt_iff_lt_mul hn] at hupper
    have hexponent : (-((k + 1 : ℕ) : ℤ) + 1) = -(k : ℤ) := by omega
    rw [hk, hexponent, zpow_neg, zpow_neg, zpow_natCast, zpow_natCast, le_div_iff₀ hdpos,
      div_lt_iff₀ hdpos, inv_mul_le_iff₀ (by positivity), ← div_eq_inv_mul,
      lt_div_iff₀ (by positivity)]
    exact ⟨by exact_mod_cast (by omega : d ≤ 10 ^ (k + 1) * n),
      by exact_mod_cast (by rw [Nat.mul_comm]; omega : n * 10 ^ k < d)⟩

theorem decade_unique {x : ℚ} {e e' : ℤ} (h : (10 : ℚ) ^ e ≤ x) (hlt : x < 10 ^ (e + 1))
    (h' : (10 : ℚ) ^ e' ≤ x) (hlt' : x < 10 ^ (e' + 1)) : e = e' := by
  have hle := (zpow_lt_zpow_iff_right₀ (by norm_num : (1 : ℚ) < 10)).mp (lt_of_le_of_lt h hlt')
  have hge := (zpow_lt_zpow_iff_right₀ (by norm_num : (1 : ℚ) < 10)).mp (lt_of_le_of_lt h' hlt)
  omega

/-! ### The rounded decimal -/

/-- The decimal of a coefficient on the grid of a decade. -/
def onDecade (digits : ℕ) (e : ℤ) (m : ℕ) : Decimal :=
  if m = 10 ^ digits then ⟨10 ^ (digits - 1), e - digits + 2⟩ else ⟨m, e - digits + 1⟩

section Significant
variable {digits n d m : ℕ} {e : ℤ}

theorem exists_significant (digits : ℕ) (hn : 0 < n) (hd : 0 < d) :
    ∃ (e : ℤ) (m : ℕ), (10 : ℚ) ^ e ≤ (n : ℚ) / d ∧ (n : ℚ) / d < 10 ^ (e + 1) ∧
      RoundsTo ((n : ℚ) / d / 10 ^ (e - digits + 1)) m ∧
      significant digits n d = onDecade digits e m := by
  obtain ⟨hlower, hupper⟩ := leadingExponent_spec hn hd
  obtain ⟨shift, hshift⟩ : ∃ shift : ℤ, shift = digits - 1 - leadingExponent n d := ⟨_, rfl⟩
  have hround := roundsTo_roundHalfEven (n * 10 ^ shift.toNat)
    (Nat.mul_pos hd (Nat.pow_pos (by decide)) : 0 < d * 10 ^ (-shift).toNat)
  have hgrid : leadingExponent n d - digits + 1 = -shift := by omega
  have hscaled : ((n * 10 ^ shift.toNat : ℕ) : ℚ) / (d * 10 ^ (-shift).toNat : ℕ) =
      (n : ℚ) / d / 10 ^ (leadingExponent n d - digits + 1) := by
    rw [hgrid, zpow_neg, div_inv_eq_mul, ten_zpow_eq]
    push_cast
    rw [mul_div_mul_comm]
  rw [hscaled] at hround
  refine ⟨leadingExponent n d, _, hlower, hupper, hround, ?_⟩
  have hexponent : leadingExponent n d - digits + 2 = 1 - shift := by omega
  rw [significant, onDecade, hgrid, hexponent, ← hshift]

/-- Rounding is decided by the decade and the nearest coefficient there. -/
theorem significant_eq (hn : 0 < n) (hd : 0 < d) (hlower : (10 : ℚ) ^ e ≤ (n : ℚ) / d)
    (hupper : (n : ℚ) / d < 10 ^ (e + 1))
    (hround : RoundsTo ((n : ℚ) / d / 10 ^ (e - digits + 1)) m) :
    significant digits n d = onDecade digits e m := by
  obtain ⟨e', m', hlower', hupper', hround', heq⟩ := exists_significant digits hn hd
  obtain rfl := decade_unique hlower hupper hlower' hupper'
  rw [heq, hround.unique hround']

example : significant 3 1245 1 = ⟨124, 1⟩ := by decide +kernel
example : significant 2 9996 1000 = ⟨10, 0⟩ := by decide +kernel

theorem ten_zpow_sub (digits : ℕ) (e : ℤ) :
    (10 : ℚ) ^ e = 10 ^ (digits : ℕ) * 10 ^ (e - digits) := by
  rw [← zpow_natCast, ← zpow_add₀ (by norm_num)]
  congr 1
  omega

theorem value_onDecade (hdigits : 0 < digits) (e : ℤ) (m : ℕ) :
    (onDecade digits e m).value = m * 10 ^ (e - digits + 1) := by
  rw [onDecade]
  split
  · next htop =>
      obtain ⟨k, rfl⟩ := Nat.exists_eq_add_of_le' hdigits
      have hexponent : e - (k + 1 : ℕ) + 2 = (e - (k + 1 : ℕ) + 1) + 1 := by omega
      rw [value, htop, hexponent, zpow_add_one₀ (by norm_num), Nat.add_sub_cancel, pow_succ]
      push_cast
      ring
  · rfl

/-- The coefficient has the count of digits, or is the first one with more. -/
theorem coefficient_bounds (hdigits : 0 < digits) {x : ℚ} (hlower : (10 : ℚ) ^ e ≤ x)
    (hupper : x < 10 ^ (e + 1)) (hround : RoundsTo (x / 10 ^ (e - digits + 1)) m) :
    10 ^ (digits - 1) ≤ m ∧ m ≤ 10 ^ digits := by
  have hpos : (0 : ℚ) < 10 ^ (e - digits + 1) := by positivity
  constructor
  · refine hround.le_of_natCast_le ?_
    rw [le_div_iff₀ hpos]
    have hsplit := ten_zpow_sub (digits - 1) e
    have hexponent : e - (digits - 1 : ℕ) = e - digits + 1 := by omega
    rw [hexponent] at hsplit
    push_cast
    rwa [← hsplit]
  · refine hround.le_of_le_natCast ?_
    rw [div_le_iff₀ hpos]
    have hsplit := ten_zpow_sub digits (e + 1)
    have hexponent : e + 1 - digits = e - digits + 1 := by omega
    rw [hexponent] at hsplit
    push_cast
    rw [← hsplit]
    exact le_of_lt hupper

end Significant

section Grid
variable {u x : ℚ} {m : ℕ}

theorem abs_grid (hu : 0 < u) (m : ℕ) (x : ℚ) : |(m : ℚ) - x / u| * u = |m * u - x| := by
  rw [← abs_of_pos hu, ← abs_mul, abs_of_pos hu, sub_mul, div_mul_cancel₀ _ (ne_of_gt hu)]

theorem roundsTo_of_abs (hu : 0 < u) (h : |m * u - x| ≤ u / 2)
    (heven : |m * u - x| = u / 2 → m % 2 = 0) : RoundsTo (x / u) m := by
  rw [← abs_grid hu] at h heven
  refine ⟨le_of_mul_le_mul_right (by linarith) hu, fun htie => heven ?_⟩
  rw [htie]
  ring

theorem abs_of_roundsTo (hu : 0 < u) (h : RoundsTo (x / u) m) :
    |m * u - x| ≤ u / 2 ∧ (|m * u - x| = u / 2 → m % 2 = 0) := by
  rw [← abs_grid hu]
  have hscaled := mul_le_mul_of_nonneg_right h.near (le_of_lt hu)
  refine ⟨by linarith, fun htie => h.even ?_⟩
  have hmul : |(m : ℚ) - x / u| * u = 1 / 2 * u := by linarith
  exact mul_right_cancel₀ (ne_of_gt hu) hmul

end Grid

section Bounds
variable {digits n d : ℕ}

/-- The digits are counted from the decade of the number. -/
theorem exists_abs_significant_sub_le (hdigits : 0 < digits) (hn : 0 < n) (hd : 0 < d) :
    ∃ e : ℤ, (10 : ℚ) ^ e ≤ n / d ∧
      |(significant digits n d).value - n / d| ≤ 10 ^ (e - digits + 1) / 2 := by
  obtain ⟨e, m, hlower, -, hround, heq⟩ := exists_significant digits hn hd
  have hhalf := (abs_of_roundsTo (by positivity) hround).1
  rw [← value_onDecade hdigits, ← heq] at hhalf
  exact ⟨e, hlower, hhalf⟩

/-- The error is at most half a unit of the last digit. -/
theorem abs_significant_sub_le (hdigits : 0 < digits) (hn : 0 < n) (hd : 0 < d) :
    |(significant digits n d).value - n / d| ≤ 10 ^ (significant digits n d).exponent / 2 := by
  obtain ⟨e, m, -, -, hround, heq⟩ := exists_significant digits hn hd
  have hhalf := (abs_of_roundsTo (by positivity) hround).1
  rw [← value_onDecade hdigits, ← heq] at hhalf
  refine le_trans hhalf ?_
  have hgrid : (10 : ℚ) ^ (e - digits + 1) ≤ 10 ^ (significant digits n d).exponent := by
    refine zpow_le_zpow_right₀ (by norm_num) ?_
    rw [heq, onDecade]
    split <;> simp
  linarith

theorem significant_coefficient (hdigits : 0 < digits) (hn : 0 < n) (hd : 0 < d) :
    10 ^ (digits - 1) ≤ (significant digits n d).coefficient ∧
      (significant digits n d).coefficient < 10 ^ digits := by
  obtain ⟨e, m, hlower, hupper, hround, heq⟩ := exists_significant digits hn hd
  obtain ⟨hfirst, hlast⟩ := coefficient_bounds hdigits hlower hupper hround
  rw [heq, onDecade]
  split
  · exact ⟨Nat.le_refl _, Nat.pow_lt_pow_right (by decide) (by omega)⟩
  · next hne => exact ⟨hfirst, Nat.lt_of_le_of_ne hlast hne⟩

/-- The error is less than the rounded decimal. -/
theorem abs_significant_sub_lt (hdigits : 0 < digits) (hn : 0 < n) (hd : 0 < d) :
    |(significant digits n d).value - n / d| < (significant digits n d).value := by
  refine lt_of_le_of_lt (abs_significant_sub_le hdigits hn hd) ?_
  have hpos : (0 : ℚ) < 10 ^ (significant digits n d).exponent := by positivity
  have hone : (1 : ℚ) ≤ (significant digits n d).coefficient := by
    have hfirst := (significant_coefficient hdigits hn hd).1
    exact_mod_cast Nat.le_trans (Nat.one_le_pow _ _ (by decide)) hfirst
  rw [value]
  have hle := mul_le_mul_of_nonneg_right hone (le_of_lt hpos)
  linarith

/-- Rounding does not fall below a power of ten. -/
theorem le_value_significant (hdigits : 0 < digits) (hn : 0 < n) (hd : 0 < d) {k : ℤ}
    (h : (10 : ℚ) ^ k ≤ n / d) : (10 : ℚ) ^ k ≤ (significant digits n d).value := by
  obtain ⟨e, m, hlower, hupper, hround, heq⟩ := exists_significant digits hn hd
  have hdecade : k ≤ e := by
    have hlt := (zpow_lt_zpow_iff_right₀ (by norm_num : (1 : ℚ) < 10)).mp
      (lt_of_le_of_lt h hupper)
    omega
  have hfirst := (coefficient_bounds hdigits hlower hupper hround).1
  have hsplit := ten_zpow_sub (digits - 1) e
  have hexponent : e - (digits - 1 : ℕ) = e - digits + 1 := by omega
  rw [hexponent] at hsplit
  calc (10 : ℚ) ^ k ≤ 10 ^ e := zpow_le_zpow_right₀ (by norm_num) hdecade
    _ = 10 ^ (digits - 1) * 10 ^ (e - digits + 1) := hsplit
    _ ≤ m * 10 ^ (e - digits + 1) :=
      mul_le_mul_of_nonneg_right (by exact_mod_cast hfirst) (by positivity)
    _ = (significant digits n d).value := by rw [heq, value_onDecade hdigits]

/-- Below a power of ten rounding reaches it, or stays a unit of the last digit
below it. -/
theorem value_significant_le (hdigits : 0 < digits) (hn : 0 < n) (hd : 0 < d) {k : ℤ}
    (h : (n : ℚ) / d < 10 ^ k) :
    (significant digits n d).value = 10 ^ k ∨
      (significant digits n d).value ≤ 10 ^ k - 10 ^ (k - digits) := by
  obtain ⟨e, m, hlower, hupper, hround, heq⟩ := exists_significant digits hn hd
  have hlast := (coefficient_bounds hdigits hlower hupper hround).2
  have hdecade : e < k :=
    (zpow_lt_zpow_iff_right₀ (by norm_num : (1 : ℚ) < 10)).mp (lt_of_le_of_lt hlower h)
  have hu : (0 : ℚ) < 10 ^ (e - digits + 1) := by positivity
  have hten : (10 : ℚ) ^ (e + 1) = 10 ^ digits * 10 ^ (e - digits + 1) := by
    rw [ten_zpow_sub digits (e + 1)]
    congr 2
    omega
  rw [heq, value_onDecade hdigits]
  by_cases hnext : e + 1 = k
  · have hgrid : k - digits = e - digits + 1 := by omega
    rw [hgrid, ← hnext, hten, ← sub_one_mul]
    by_cases htop : m = 10 ^ digits
    · exact Or.inl (by rw [htop, Nat.cast_pow, Nat.cast_ofNat])
    · refine Or.inr (mul_le_mul_of_nonneg_right ?_ (le_of_lt hu))
      have hless : (m : ℚ) + 1 ≤ 10 ^ digits := by
        exact_mod_cast Nat.lt_of_le_of_ne hlast htop
      linarith
  · refine Or.inr ?_
    have hvalue : (m : ℚ) * 10 ^ (e - digits + 1) ≤ 10 ^ (k - 1) := by
      calc (m : ℚ) * 10 ^ (e - digits + 1) ≤ 10 ^ digits * 10 ^ (e - digits + 1) :=
            mul_le_mul_of_nonneg_right (by exact_mod_cast hlast) (le_of_lt hu)
        _ = 10 ^ (e + 1) := hten.symm
        _ ≤ 10 ^ (k - 1) := zpow_le_zpow_right₀ (by norm_num) (by omega)
    have hgrid : (10 : ℚ) ^ (k - digits) ≤ 10 ^ (k - 1) :=
      zpow_le_zpow_right₀ (by norm_num) (by omega)
    have hpower : (10 : ℚ) ^ k = 10 * 10 ^ (k - 1) := by
      rw [mul_comm, ← zpow_add_one₀ (by norm_num), sub_add_cancel]
    have hpos : (0 : ℚ) < 10 ^ (k - 1) := by positivity
    linarith

end Bounds

/-! ### Rounding again -/

theorem even_ten_pow {digits : ℕ} (hdigits : 0 < digits) : 10 ^ digits % 2 = 0 := by
  obtain ⟨k, rfl⟩ := Nat.exists_eq_add_of_le' hdigits
  rw [Nat.pow_succ, Nat.mul_mod]
  simp

section Again
variable {digits n d n' d' m : ℕ} {e : ℤ}

/-- Just below a power of ten the grid is finer. -/
theorem significant_below (hdigits : 0 < digits) (hn : 0 < n) (hd : 0 < d)
    (hlt : (n : ℚ) / d < 10 ^ (e + 1))
    (hnear : (10 : ℚ) ^ (e + 1) - n / d ≤ 10 ^ (e - digits + 1) / 2) :
    significant digits n d = ⟨10 ^ (digits - 1), e - digits + 2⟩ := by
  have hu : (0 : ℚ) < 10 ^ (e - digits + 1) := by positivity
  have hone : (10 : ℚ) ^ (e - digits + 1) ≤ 10 ^ e :=
    zpow_le_zpow_right₀ (by norm_num) (by omega)
  have hten : (10 : ℚ) ^ (e + 1) = 10 * 10 ^ e := by rw [zpow_add_one₀ (by norm_num), mul_comm]
  have htop : ((10 ^ digits : ℕ) : ℚ) * 10 ^ (e - digits + 1) = 10 ^ (e + 1) := by
    rw [ten_zpow_sub digits (e + 1)]
    push_cast
    congr 2
    omega
  have hround : RoundsTo ((n : ℚ) / d / 10 ^ (e - digits + 1)) (10 ^ digits) := by
    refine roundsTo_of_abs hu ?_ (fun _ => even_ten_pow hdigits)
    rwa [htop, abs_of_pos (by linarith)]
  rw [significant_eq hn hd (by linarith) hlt hround, onDecade, if_pos rfl]

/-- On a power of ten and not far above it the grid is coarser. -/
theorem significant_above (hdigits : 2 ≤ digits) (hn : 0 < n) (hd : 0 < d)
    (hle : (10 : ℚ) ^ e ≤ n / d)
    (hnear : (n : ℚ) / d - 10 ^ e ≤ 10 ^ (e - digits + 1) / 2) :
    significant digits n d = ⟨10 ^ (digits - 1), e - digits + 1⟩ := by
  have hu : (0 : ℚ) < 10 ^ (e - digits + 1) := by positivity
  have hone : (10 : ℚ) ^ (e - digits + 1) ≤ 10 ^ e :=
    zpow_le_zpow_right₀ (by norm_num) (by omega)
  have hten : (10 : ℚ) ^ (e + 1) = 10 * 10 ^ e := by rw [zpow_add_one₀ (by norm_num), mul_comm]
  have hfirst : ((10 ^ (digits - 1) : ℕ) : ℚ) * 10 ^ (e - digits + 1) = 10 ^ e := by
    rw [ten_zpow_sub (digits - 1) e]
    push_cast
    congr 2
    omega
  have hround : RoundsTo ((n : ℚ) / d / 10 ^ (e - digits + 1)) (10 ^ (digits - 1)) := by
    refine roundsTo_of_abs hu ?_ (fun _ => even_ten_pow (by omega))
    rw [hfirst, abs_sub_comm, abs_of_nonneg (by linarith)]
    exact hnear
  have hne : 10 ^ (digits - 1) ≠ 10 ^ digits := by
    intro heq
    have hinjective := Nat.pow_right_injective (by decide : 2 ≤ 10) heq
    omega
  rw [significant_eq hn hd hle (by linarith) hround, onDecade, if_neg hne]

/-- A quotient as near to a rounded decimal as the one that was rounded to it is
rounded to it too; below a power of ten it has to be nearer. -/
theorem significant_of_near (hdigits : 2 ≤ digits) (hn : 0 < n) (hd : 0 < d) (hn' : 0 < n')
    (hd' : 0 < d')
    (hnear : |(significant digits n d).value - n' / d'| ≤
      |(significant digits n d).value - n / d|)
    (hbelow : (n' : ℚ) / d' < (significant digits n d).value →
      (significant digits n d).value ≤ n / d →
        (significant digits n d).coefficient = 10 ^ (digits - 1) →
          (significant digits n d).value - n' / d' ≤
            10 ^ ((significant digits n d).exponent - 1) / 2) :
    significant digits n' d' = significant digits n d := by
  obtain ⟨e, m, hlower, hupper, hround, heq⟩ := exists_significant digits hn hd
  have hvalue := value_onDecade (by omega : 0 < digits) e m
  have hu : (0 : ℚ) < 10 ^ (e - digits + 1) := by positivity
  obtain ⟨hhalf, htie⟩ := abs_of_roundsTo hu hround
  obtain ⟨hfirst, hlast⟩ := coefficient_bounds (by omega : 0 < digits) hlower hupper hround
  rw [← heq] at hvalue
  rw [← hvalue] at hhalf htie
  have hclose := le_trans hnear hhalf
  obtain ⟨hclose₁, hclose₂⟩ := abs_le.mp hclose
  have hten : (10 : ℚ) ^ (e + 1) = 10 ^ digits * 10 ^ (e - digits + 1) := by
    rw [ten_zpow_sub digits (e + 1)]
    congr 2
    omega
  have hone : (10 : ℚ) ^ e = 10 ^ (digits - 1) * 10 ^ (e - digits + 1) := by
    rw [ten_zpow_sub (digits - 1) e]
    congr 2
    omega
  by_cases htop : m = 10 ^ digits
  · -- rounded up to the next decade
    rw [onDecade, if_pos htop] at heq
    rw [htop, Nat.cast_pow, Nat.cast_ofNat, ← hten] at hvalue
    rw [hvalue] at hclose₁ hclose₂
    by_cases hlt : (n' : ℚ) / d' < 10 ^ (e + 1)
    · rw [significant_below (by omega) hn' hd' hlt hclose₂, heq]
    · have hcoarser : (10 : ℚ) ^ (e - digits + 1) ≤ 10 ^ (e + 1 - digits + 1) :=
        zpow_le_zpow_right₀ (by norm_num) (by omega)
      rw [significant_above hdigits hn' hd' (le_of_not_gt hlt) (by linarith), heq]
      congr 1
      omega
  · have heq' := heq
    rw [onDecade, if_neg htop] at heq'
    by_cases hge : (10 : ℚ) ^ e ≤ n' / d'
    · -- still in the decade
      have hroom : ((m : ℚ) + 1) * 10 ^ (e - digits + 1) ≤ 10 ^ (e + 1) := by
        rw [hten]
        refine mul_le_mul_of_nonneg_right ?_ (le_of_lt hu)
        exact_mod_cast Nat.lt_of_le_of_ne hlast htop
      have hround' : RoundsTo ((n' : ℚ) / d' / 10 ^ (e - digits + 1)) m := by
        refine roundsTo_of_abs hu (hvalue ▸ hclose) (fun hhalf' => htie (le_antisymm hhalf ?_))
        rw [← hvalue] at hhalf'
        rwa [← hhalf']
      rw [significant_eq hn' hd' hge (by linarith) hround', heq]
    · -- below the decade: the decimal is its power of ten
      have hbottom : m = 10 ^ (digits - 1) := by
        by_contra hne
        have hroom : (10 : ℚ) ^ e + 10 ^ (e - digits + 1) ≤ m * 10 ^ (e - digits + 1) := by
          rw [hone, ← add_one_mul]
          refine mul_le_mul_of_nonneg_right ?_ (le_of_lt hu)
          exact_mod_cast Nat.lt_of_le_of_ne hfirst (Ne.symm hne)
        linarith
      rw [hbottom, Nat.cast_pow, Nat.cast_ofNat, ← hone] at hvalue
      rw [hvalue, heq'] at hbelow
      have hfiner := hbelow (by linarith) hlower hbottom
      have hexponent : e - digits + 1 - 1 = e - 1 - digits + 1 := by omega
      have hdecade : (10 : ℚ) ^ (e - 1 + 1) = 10 ^ e := by rw [sub_add_cancel]
      rw [hexponent, ← hdecade] at hfiner
      rw [significant_below (by omega) hn' hd' (by rw [hdecade]; linarith) hfiner, heq',
        hbottom]
      congr 1
      omega

end Again

end GraphCalc.Decimal
