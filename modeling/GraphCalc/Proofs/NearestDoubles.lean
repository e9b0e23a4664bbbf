/-
The double nearest to a number.  No double is nearer, and of two that are equally near
the one with the even pattern is taken; infinity counts as the next magnitude behind
the greatest double.
-/
import GraphCalc.Proofs.DecimalValues
namespace GraphCalc.Double

open Layout (double)

/-! ### Distances on a line -/

section Distances
variable {a b c x : ℚ}

/-- Where `b` is as near as `c`, and its neighbour `a` on that side is not beyond `c`, the
number is the midpoint of the two neighbours. -/
theorem abs_sub_of_tie (hside : c ≤ a ∧ a < b ∨ b < a ∧ a ≤ c) (htie : |c - x| = |b - x|)
    (hnear : |b - x| ≤ |a - x|) : |b - x| = |b - a| / 2 := by
  have hmiddle : b + c = 2 * x := by
    rcases abs_eq_abs.mp htie with hsame | hopposite
    · rcases hside with ⟨hca, hab⟩ | ⟨hba, hac⟩ <;> linarith
    · linarith
  rcases hside with ⟨hca, hab⟩ | ⟨hba, hac⟩
  · rw [abs_of_nonneg (by linarith : 0 ≤ b - x)] at hnear ⊢
    rw [abs_of_pos (sub_pos.mpr hab)]
    rcases abs_cases (a - x) with ⟨heq, hsign⟩ | ⟨heq, hsign⟩ <;> linarith
  · rw [abs_of_nonpos (by linarith : b - x ≤ 0)] at hnear ⊢
    rw [abs_of_neg (sub_neg.mpr hba)]
    rcases abs_cases (a - x) with ⟨heq, hsign⟩ | ⟨heq, hsign⟩ <;> linarith

/-- A number that is as near to `c` as to anything before is beyond all of it. -/
theorem abs_sub_le_of_beyond (hab : a ≤ b) (hbc : b ≤ c) (hb : |c - x| ≤ |b - x|)
    (ha : |c - x| ≤ |a - x|) : |b - x| ≤ |a - x| := by
  rcases eq_or_lt_of_le hbc with rfl | hlt
  · exact ha
  · have hx : b ≤ x := by
      by_contra hbelow
      have hbx : 0 < b - x := by linarith
      rw [abs_of_pos hbx, abs_of_pos (by linarith)] at hb
      linarith
    rw [abs_of_nonpos (by linarith), abs_of_nonpos (by linarith)]
    linarith

end Distances

/-! ### The nearest pattern -/

/-- The pattern nearest to a magnitude, a tie going to the even one. -/
structure NearestEven (x : ℚ) (code : ℕ) : Prop where
  le_top : code ≤ double.top
  near : ∀ other ≤ double.top, |double.magnitude code - x| ≤ |double.magnitude other - x|
  even : ∀ other ≤ double.top, |double.magnitude other - x| = |double.magnitude code - x| →
    other = code ∨ code % 2 = 0

/-- Distances are counted in units. -/
theorem abs_magnitude_sub (n d code : ℕ) :
    |double.magnitude code - (n : ℚ) / d| * double.unitDenominator =
      |(double.units code : ℚ) - double.inUnits n d| := by
  have hpos := double.unitDenominator_pos
  rw [Layout.inUnits, ← Layout.magnitude_mul, ← sub_mul, abs_mul, abs_of_pos hpos]

section Nearest
variable {n d : ℕ} (hd : 0 < d)
include hd

/-- Of two magnitudes that are equally near the one that is found has an even pattern.
Inside its block its neighbours are multiples of one unit, and rounding takes the even
multiple; the ends of the block are even. -/
theorem even_of_tie {other : ℕ} (hfinite : double.nearest n d < double.top)
    (hne : other ≠ double.nearest n d)
    (htie : |(double.units other : ℚ) - double.inUnits n d| =
      |(double.units (double.nearest n d) : ℚ) - double.inUnits n d|) :
    double.nearest n d % 2 = 0 := by
  obtain ⟨block, m, hnearest, hround, hle, hblock⟩ :=
    Layout.exists_nearest n (by decide : 0 < double.precision) hd
  have hnear := Layout.abs_nearest_sub_le (by decide) hd hfinite
  obtain ⟨x, hx⟩ : ∃ x, x = double.inUnits n d := ⟨_, rfl⟩
  have hcode : double.nearest n d = block * double.half + m := by omega
  have hhalf : double.half = 2 ^ 52 := rfl
  have hpow : (0 : ℚ) < 2 ^ block := by positivity
  have hbase : block * double.half % 2 = 0 := by
    rw [hhalf]
    omega
  have hge : block = 0 ∨ double.half ≤ m := by
    refine hblock.imp_right (fun h => hround.le_of_natCast_le ?_)
    rwa [le_div_iff₀ hpow]
  rw [← hx] at htie hround hnear
  rw [hcode] at hne htie hnear ⊢
  by_cases hend : m = double.half ∨ m = 2 * double.half
  · omega
  have hunits : ∀ k : ℕ, k ≤ 2 * double.half → (block = 0 ∨ double.half ≤ k) →
      (double.units (block * double.half + k) : ℚ) = k * 2 ^ block := by
    intro k hk hk'
    exact_mod_cast double.units_block hk hk'
  have hscale : |(m : ℚ) - x / 2 ^ block| = |(m : ℚ) * 2 ^ block - x| / 2 ^ block := by
    rw [← abs_of_pos hpow, ← abs_div, abs_of_pos hpow, sub_div,
      mul_div_cancel_right₀ _ (ne_of_gt hpow)]
  have hneighbour : ∃ k : ℕ, (k + 1 = m ∨ k = m + 1) ∧ k ≤ 2 * double.half ∧
      (block = 0 ∨ double.half ≤ k) ∧
      ((double.units other : ℚ) ≤ k * 2 ^ block ∧ k < m ∨
        m < k ∧ (k : ℚ) * 2 ^ block ≤ double.units other) := by
    rcases Nat.lt_or_gt_of_ne hne with hbelow | habove
    · have hm : m ≠ 0 := by
        rintro rfl
        rcases hge with rfl | hzero <;> omega
      obtain ⟨k, rfl⟩ : ∃ k, m = k + 1 := Nat.exists_eq_add_one_of_ne_zero hm
      have hk : block = 0 ∨ double.half ≤ k := hge.imp_right (fun hm => by omega)
      refine ⟨k, Or.inl rfl, by omega, hk, Or.inl ⟨?_, by omega⟩⟩
      rw [← hunits k (by omega) hk]
      exact_mod_cast double.units_strictMono.monotone (by omega)
    · have hk : block = 0 ∨ double.half ≤ m + 1 := hge.imp_right (fun hm => by omega)
      refine ⟨m + 1, Or.inr rfl, by omega, hk, Or.inr ⟨by omega, ?_⟩⟩
      rw [← hunits (m + 1) (by omega) hk]
      exact_mod_cast double.units_strictMono.monotone (by omega)
  obtain ⟨k, hstep, hkle, hkge, hside⟩ := hneighbour
  have heven : m % 2 = 0 := by
    apply hround.even
    have hbest := hnear (block * double.half + k)
    rw [hunits m hle hge] at htie hbest
    rw [hunits k hkle hkge] at hbest
    have hsides : (double.units other : ℚ) ≤ k * 2 ^ block ∧ (k : ℚ) * 2 ^ block < m * 2 ^ block ∨
        (m : ℚ) * 2 ^ block < k * 2 ^ block ∧ (k : ℚ) * 2 ^ block ≤ double.units other := by
      rw [mul_lt_mul_iff_of_pos_right hpow, mul_lt_mul_iff_of_pos_right hpow, Nat.cast_lt,
        Nat.cast_lt]
      exact hside
    have hone : |(m : ℚ) - k| = 1 := by
      rcases hstep with rfl | rfl <;> simp
    rw [hscale, abs_sub_of_tie hsides htie hbest, ← sub_mul, abs_mul, hone, abs_of_pos hpow,
      one_mul, div_div, mul_comm, ← div_div, div_self (ne_of_gt hpow)]
  omega

/-- Rounding finds the nearest pattern. -/
theorem nearestEven_nearest : NearestEven ((n : ℚ) / d) (double.nearest n d) := by
  have hpos := double.unitDenominator_pos
  obtain ⟨code, hcode, hbest, -⟩ := Layout.exists_unbounded n (by decide : 0 < double.precision) hd
  have hnear : ∀ other ≤ double.top,
      |(double.units (double.nearest n d) : ℚ) - double.inUnits n d| ≤
        |(double.units other : ℚ) - double.inUnits n d| := by
    intro other hother
    rcases Nat.le_total code double.top with hle | hge
    · rw [hcode, Nat.min_eq_right hle]
      exact hbest other
    · have hmono : (double.units other : ℚ) ≤ double.units double.top := by
        exact_mod_cast double.units_strictMono.monotone hother
      have hmono' : (double.units double.top : ℚ) ≤ double.units code := by
        exact_mod_cast double.units_strictMono.monotone hge
      rw [hcode, Nat.min_eq_left hge]
      exact abs_sub_le_of_beyond hmono hmono' (hbest double.top) (hbest other)
  refine ⟨Nat.min_le_left _ _, ?_, ?_⟩
  · intro other hother
    refine le_of_mul_le_mul_right ?_ hpos
    rw [abs_magnitude_sub, abs_magnitude_sub]
    exact hnear other hother
  · intro other hother htie
    by_cases hne : other = double.nearest n d
    · exact Or.inl hne
    refine Or.inr ?_
    have hscaled := congrArg (· * (double.unitDenominator : ℚ)) htie
    simp only [abs_magnitude_sub] at hscaled
    rcases Nat.lt_or_ge (double.nearest n d) double.top with hfinite | hinfinite
    · exact even_of_tie hd hfinite hne hscaled
    · have htop : double.nearest n d = double.top :=
        Nat.le_antisymm (Nat.min_le_left _ _) hinfinite
      rw [htop]
      rfl

end Nearest

/-- A decimal is read as the nearest double. -/
theorem nearestEven_pattern (d : Decimal) : NearestEven d.value (d.pattern double) := by
  rw [Decimal.pattern_eq_nearest, Decimal.value_eq]
  exact nearestEven_nearest d.denominator_pos

example : Decimal.pattern double ⟨3, -1⟩ = 0x3FD3333333333333 := by decide +kernel

end GraphCalc.Double
