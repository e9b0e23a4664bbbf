/-
Rounding to a binary layout.  The magnitudes of a layout grow with their
patterns, and the nearest pattern of a quotient is as near to it as any other
one; so rounding keeps the order, and keeps every magnitude of the layout.
-/
import GraphCalc.Binary
import Mathlib.Algebra.Order.Field.Rat
import Mathlib.Data.Nat.Cast.Order.Field
import Mathlib.Tactic.FieldSimp
import Mathlib.Tactic.Linarith
import Mathlib.Tactic.NormNum
import Mathlib.Tactic.Positivity
import Mathlib.Tactic.Ring
namespace GraphCalc

/-! ### Nearest natural numbers -/

/-- A natural number is nearest to a magnitude; of two such numbers it is the
even one. -/
structure RoundsTo (x : ℚ) (m : ℕ) : Prop where
  near : |(m : ℚ) - x| ≤ 1 / 2
  even : |(m : ℚ) - x| = 1 / 2 → m % 2 = 0

namespace RoundsTo
variable {x y : ℚ} {m k : ℕ}

theorem one_le_abs_sub (h : k ≠ m) : 1 ≤ |(k : ℚ) - m| := by
  have hne : (k : ℤ) - m ≠ 0 := by omega
  have habs : 1 ≤ |(k : ℤ) - m| := Int.one_le_abs hne
  exact_mod_cast habs

theorem le_abs_sub (h : RoundsTo x m) (k : ℕ) : |(m : ℚ) - x| ≤ |(k : ℚ) - x| := by
  by_cases hk : k = m
  · rw [hk]
  · have hfar := one_le_abs_sub hk
    have htriangle := abs_sub_le (k : ℚ) x m
    rw [abs_sub_comm x (m : ℚ)] at htriangle
    have hnear := h.near
    linarith

/-- What is nearest to a natural number is itself. -/
theorem le_of_natCast_le (h : RoundsTo x m) (hk : (k : ℚ) ≤ x) : k ≤ m := by
  by_contra hlt
  have hsucc : (m : ℚ) + 1 ≤ k := by exact_mod_cast Nat.lt_of_not_le hlt
  have hnear := (abs_le.mp h.near).1
  linarith

theorem le_of_le_natCast (h : RoundsTo x m) (hk : x ≤ k) : m ≤ k := by
  by_contra hlt
  have hsucc : (k : ℚ) + 1 ≤ m := by exact_mod_cast Nat.lt_of_not_le hlt
  have hnear := (abs_le.mp h.near).2
  linarith

theorem unique (h : RoundsTo x m) (hk : RoundsTo x k) : m = k := by
  by_contra hne
  have hfar := one_le_abs_sub (Ne.symm hne)
  have htriangle := abs_sub_le (k : ℚ) x m
  rw [abs_sub_comm x (m : ℚ)] at htriangle
  have hm : |(m : ℚ) - x| = 1 / 2 := by linarith [h.near, hk.near]
  have hk' : |(k : ℚ) - x| = 1 / 2 := by linarith [h.near, hk.near]
  have hmeven := h.even hm
  have hkeven := hk.even hk'
  have hone : |(k : ℚ) - m| = 1 := by linarith
  have hone' : |(k : ℤ) - m| = 1 := by exact_mod_cast hone
  rcases (abs_eq Int.one_nonneg).mp hone' with hup | hdown <;> omega

end RoundsTo

theorem roundsTo_roundHalfEven (n : ℕ) {d : ℕ} (hd : 0 < d) :
    RoundsTo ((n : ℚ) / d) (roundHalfEven n d) := by
  have hpos : (0 : ℚ) < d := by exact_mod_cast hd
  have hmod : n % d < d := Nat.mod_lt n hd
  have hsplit : (n : ℚ) / d = (n / d : ℕ) + ((n % d : ℕ) : ℚ) / d := by
    rw [div_eq_iff (ne_of_gt hpos), add_mul, div_mul_cancel₀ _ (ne_of_gt hpos)]
    exact_mod_cast (Nat.div_add_mod' n d).symm
  have hnonneg : (0 : ℚ) ≤ ((n % d : ℕ) : ℚ) / d := by positivity
  simp only [roundHalfEven]
  rw [hsplit]
  by_cases hbelow : 2 * (n % d) < d
  · have hlt : ((n % d : ℕ) : ℚ) / d < 1 / 2 := by
      rw [div_lt_div_iff₀ hpos two_pos]
      exact_mod_cast (by omega : n % d * 2 < 1 * d)
    rw [if_pos hbelow]
    have habs : |((n / d : ℕ) : ℚ) - ((n / d : ℕ) + ((n % d : ℕ) : ℚ) / d)| < 1 / 2 := by
      rwa [sub_add_cancel_left, abs_neg, abs_of_nonneg hnonneg]
    exact ⟨le_of_lt habs, fun h => absurd h (ne_of_lt habs)⟩
  rw [if_neg hbelow]
  by_cases habove : d < 2 * (n % d)
  · have hgt : 1 / 2 < ((n % d : ℕ) : ℚ) / d := by
      rw [div_lt_div_iff₀ two_pos hpos]
      exact_mod_cast (by omega : 1 * d < n % d * 2)
    have hlt : ((n % d : ℕ) : ℚ) / d < 1 := by
      rw [div_lt_one hpos]
      exact_mod_cast hmod
    rw [if_pos habove]
    have habs : |((n / d + 1 : ℕ) : ℚ) - ((n / d : ℕ) + ((n % d : ℕ) : ℚ) / d)| < 1 / 2 := by
      rw [abs_lt]
      push_cast
      constructor <;> linarith
    exact ⟨le_of_lt habs, fun h => absurd h (ne_of_lt habs)⟩
  · have hhalf : ((n % d : ℕ) : ℚ) / d = 1 / 2 := by
      rw [div_eq_div_iff (ne_of_gt hpos) two_ne_zero]
      exact_mod_cast (by omega : n % d * 2 = 1 * d)
    rw [if_neg habove, hhalf]
    refine ⟨?_, fun _ => by omega⟩
    rw [abs_le]
    rcases Nat.mod_two_eq_zero_or_one (n / d) with heven | hodd
    · rw [heven]
      constructor <;> push_cast <;> linarith
    · rw [hodd]
      constructor <;> push_cast <;> linarith

/-- Equal quotients are rounded alike. -/
theorem roundHalfEven_congr {n d n' d' : ℕ} (hd : 0 < d) (hd' : 0 < d')
    (h : (n : ℚ) / d = n' / d') : roundHalfEven n d = roundHalfEven n' d' :=
  (h ▸ roundsTo_roundHalfEven n hd).unique (roundsTo_roundHalfEven n' hd')

namespace Layout
variable (layout : Layout)

/-! ### Magnitudes -/

/-- The significands of a block begin here. -/
def half : ℕ :=
  2 ^ (layout.precision - 1)

theorem half_pos : 0 < layout.half :=
  Nat.pow_pos Nat.two_pos

theorem units_eq (code : ℕ) :
    layout.units code =
      (code - (code / layout.half - 1) * layout.half) * 2 ^ (code / layout.half - 1) :=
  rfl

/-- In every block the magnitudes are the multiples of one power of two, the
first magnitude of the next block included. -/
theorem units_block {block m : ℕ} (hle : m ≤ 2 * layout.half)
    (hge : block = 0 ∨ layout.half ≤ m) :
    layout.units (block * layout.half + m) = m * 2 ^ block := by
  have hpos := layout.half_pos
  rw [units_eq]
  by_cases htop : m = 2 * layout.half
  · have hdiv : (block * layout.half + m) / layout.half = block + 2 := by
      rw [htop, ← Nat.add_mul, Nat.mul_div_cancel _ hpos]
    have hrest : block * layout.half + m - (block + 1) * layout.half = layout.half := by
      rw [htop, Nat.add_mul, Nat.one_mul]
      omega
    have hlast : block + 2 - 1 = block + 1 := rfl
    rw [hdiv, hlast, hrest, htop, Nat.pow_succ]
    ring
  by_cases hsmall : m < layout.half
  · obtain rfl : block = 0 := hge.resolve_right (Nat.not_le_of_lt hsmall)
    simp [Nat.div_eq_of_lt hsmall]
  · have hdiv : (block * layout.half + m) / layout.half = block + 1 := by
      have hblock : m / layout.half = 1 :=
        Nat.div_eq_of_lt_le (by omega) (by omega)
      rw [Nat.add_comm, Nat.add_mul_div_right _ _ hpos, hblock, Nat.add_comm]
    rw [hdiv, Nat.add_sub_cancel, Nat.add_sub_cancel_left]

/-- Every pattern lies in a block. -/
theorem exists_block (code : ℕ) :
    ∃ block m : ℕ, code = block * layout.half + m ∧ m < 2 * layout.half ∧
      (block = 0 ∨ layout.half ≤ m) := by
  have hpos := layout.half_pos
  by_cases hsmall : code < layout.half
  · exact ⟨0, code, by omega, by omega, Or.inl rfl⟩
  · have hdiv := Nat.div_add_mod' code layout.half
    have hmod := Nat.mod_lt code hpos
    have hone : 1 ≤ code / layout.half := (Nat.one_le_div_iff hpos).mpr (by omega)
    obtain ⟨block, hblock⟩ := Nat.exists_eq_add_of_le' hone
    rw [hblock, Nat.add_mul, Nat.one_mul] at hdiv
    exact ⟨block, layout.half + code % layout.half, by omega, by omega, Or.inr (by omega)⟩

theorem units_lt_succ (code : ℕ) : layout.units code < layout.units (code + 1) := by
  obtain ⟨block, m, rfl, hlt, hge⟩ := layout.exists_block code
  rw [Nat.add_assoc, layout.units_block (Nat.le_of_lt hlt) hge,
    layout.units_block hlt (hge.imp_right Nat.le_succ_of_le)]
  exact Nat.mul_lt_mul_of_pos_right (Nat.lt_succ_self m) (Nat.two_pow_pos block)

/-- The magnitudes grow with their patterns. -/
theorem units_strictMono : StrictMono layout.units :=
  strictMono_nat_of_lt_succ layout.units_lt_succ

theorem units_zero : layout.units 0 = 0 := by
  rw [units_eq, Nat.zero_sub, Nat.zero_mul]

/-! ### Rounding -/

/-- A quotient, counted in least units. -/
def inUnits (n d : ℕ) : ℚ :=
  (n : ℚ) / d * layout.unitDenominator

theorem inUnits_eq (n d : ℕ) : layout.inUnits n d = (n * 2 ^ layout.unit : ℕ) / (d : ℚ) := by
  rw [inUnits, unitDenominator]
  push_cast
  ring

theorem inUnits_nonneg (n d : ℕ) : 0 ≤ layout.inUnits n d := by
  rw [inUnits]
  positivity

section Nearest
variable {layout : Layout} {n d : ℕ}

/-- Rounding takes place in the block of the quotient. -/
theorem exists_nearest (n : ℕ) (hprecision : 0 < layout.precision) (hd : 0 < d) :
    ∃ block m : ℕ, layout.nearest n d = min layout.top (block * layout.half + m) ∧
      RoundsTo (layout.inUnits n d / 2 ^ block) m ∧
      m ≤ 2 * layout.half ∧ (block = 0 ∨ layout.half * 2 ^ block ≤ layout.inUnits n d) := by
  have hdouble : 2 ^ layout.precision = 2 * layout.half := by
    rw [half, ← Nat.pow_succ', Nat.succ_eq_add_one, Nat.sub_add_cancel hprecision]
  have hdpos : (0 : ℚ) < d := by exact_mod_cast hd
  obtain ⟨scaled, hscaled⟩ : ∃ scaled, scaled = n * 2 ^ layout.unit := ⟨_, rfl⟩
  obtain ⟨block, hblock⟩ : ∃ block, block = (scaled / d).log2 + 1 - layout.precision :=
    ⟨_, rfl⟩
  have hround := roundsTo_roundHalfEven scaled
    (Nat.mul_pos hd (Nat.two_pow_pos block))
  have hunits : ((scaled : ℕ) : ℚ) / (d * 2 ^ block : ℕ) = layout.inUnits n d / 2 ^ block := by
    rw [inUnits_eq, hscaled]
    push_cast
    rw [div_div]
  rw [hunits] at hround
  -- the integer part has as many bits as its block allows
  have hlt : scaled / d < 2 * layout.half * 2 ^ block := by
    have hlog : scaled / d < 2 ^ ((scaled / d).log2 + 1) := Nat.lt_log2_self
    have hexponent : (scaled / d).log2 + 1 ≤ layout.precision + block := by omega
    have hpow := Nat.pow_le_pow_right Nat.two_pos hexponent
    rw [Nat.pow_add _ layout.precision, hdouble] at hpow
    omega
  have hupper : layout.inUnits n d / 2 ^ block ≤ (2 * layout.half : ℕ) := by
    rw [div_le_iff₀ (by positivity), inUnits_eq, div_le_iff₀ hdpos, ← hscaled]
    have hcross := (Nat.div_lt_iff_lt_mul hd).mp hlt
    exact_mod_cast Nat.le_of_lt hcross
  refine ⟨block, roundHalfEven scaled (d * 2 ^ block), ?_, hround,
    hround.le_of_le_natCast hupper, ?_⟩
  · rw [nearest, ← hscaled, ← hblock]
    rfl
  · rcases Nat.eq_zero_or_pos block with hzero | hpos
    · exact Or.inl hzero
    · have hne : scaled / d ≠ 0 := by
        intro hzero
        rw [hzero, Nat.log2_zero] at hblock
        omega
      have hlog : 2 ^ (scaled / d).log2 ≤ scaled / d := Nat.log2_self_le hne
      have hexponent : (scaled / d).log2 = layout.precision - 1 + block := by omega
      rw [hexponent, Nat.pow_add] at hlog
      refine Or.inr ?_
      rw [inUnits_eq, le_div_iff₀ hdpos, ← hscaled]
      exact_mod_cast (Nat.le_div_iff_mul_le hd).mp hlog

/-- The pattern before it is cut at infinity: no magnitude is nearer, and the
error is at most half a unit of the block. -/
theorem exists_unbounded (n : ℕ) (hprecision : 0 < layout.precision) (hd : 0 < d) :
    ∃ code : ℕ, layout.nearest n d = min layout.top code ∧
      (∀ other : ℕ, |(layout.units code : ℚ) - layout.inUnits n d| ≤
        |(layout.units other : ℚ) - layout.inUnits n d|) ∧
      |(layout.units code : ℚ) - layout.inUnits n d| ≤
        max (1 / 2) (layout.inUnits n d / (2 * layout.half)) := by
  obtain ⟨block, m, hnearest, hround, hle, hblock⟩ := exists_nearest n hprecision hd
  have hpow : (0 : ℚ) < 2 ^ block := by positivity
  have hhalf : (0 : ℚ) < layout.half := by exact_mod_cast layout.half_pos
  have hge : block = 0 ∨ layout.half ≤ m := by
    refine hblock.imp_right (fun h => hround.le_of_natCast_le ?_)
    rwa [le_div_iff₀ hpow]
  have hunits : (layout.units (block * layout.half + m) : ℚ) = m * 2 ^ block := by
    exact_mod_cast layout.units_block hle hge
  have hscale : ∀ k : ℚ, |k * 2 ^ block - layout.inUnits n d| =
      |k - layout.inUnits n d / 2 ^ block| * 2 ^ block := by
    intro k
    rw [← abs_of_pos hpow, ← abs_mul, abs_of_pos hpow, sub_mul,
      div_mul_cancel₀ _ (ne_of_gt hpow)]
  refine ⟨block * layout.half + m, hnearest, fun other => ?_, ?_⟩
  · rw [hunits, hscale]
    by_cases hbelow : other < block * layout.half + layout.half ∧ 0 < block
    · -- the other magnitude is below the block, the quotient is not
      have hfirst : layout.units other ≤ layout.half * 2 ^ block := by
        rw [← layout.units_block (by omega) (Or.inr (Nat.le_refl _))]
        exact Nat.le_of_lt (layout.units_strictMono hbelow.1)
      have hfirst' : (layout.units other : ℚ) ≤ layout.half * 2 ^ block := by
        exact_mod_cast hfirst
      have hlow := hblock.resolve_left (Nat.ne_of_gt hbelow.2)
      have hnear := mul_le_mul_of_nonneg_right (hround.le_abs_sub layout.half) (le_of_lt hpow)
      rw [← hscale layout.half, abs_sub_comm _ (layout.inUnits n d),
        abs_of_nonneg (sub_nonneg.mpr hlow)] at hnear
      refine le_trans hnear (le_trans ?_ (neg_le_abs _))
      linarith
    · -- the other magnitude is a multiple of the unit of the block
      obtain ⟨k, hk⟩ : ∃ k : ℕ, layout.units other = k * 2 ^ block := by
        obtain ⟨block', m', rfl, hlt', hge'⟩ := layout.exists_block other
        have hblocks : block ≤ block' := by
          by_contra hless
          have hmul : (block' + 1) * layout.half ≤ block * layout.half :=
            Nat.mul_le_mul_right _ (by omega)
          rw [Nat.add_mul, Nat.one_mul] at hmul
          omega
        refine ⟨m' * 2 ^ (block' - block), ?_⟩
        rw [layout.units_block (Nat.le_of_lt hlt') hge', Nat.mul_assoc, ← Nat.pow_add,
          Nat.sub_add_cancel hblocks]
      have hk' : (layout.units other : ℚ) = k * 2 ^ block := by exact_mod_cast hk
      rw [hk', hscale]
      exact mul_le_mul_of_nonneg_right (hround.le_abs_sub k) (le_of_lt hpow)
  · have herror := mul_le_mul_of_nonneg_right hround.near (le_of_lt hpow)
    rw [← hscale, ← hunits] at herror
    refine le_trans herror ?_
    rcases hblock with rfl | hlow
    · simp
    · refine le_max_of_le_right ?_
      rw [le_div_iff₀ (by positivity)]
      linarith

/-- A magnitude that is not above the quotient is not above its nearest one. -/
theorem le_nearest (hprecision : 0 < layout.precision) (hd : 0 < d) {code : ℕ}
    (htop : code ≤ layout.top) (h : (layout.units code : ℚ) ≤ layout.inUnits n d) :
    code ≤ layout.nearest n d := by
  obtain ⟨found, hnearest, hbest, -⟩ := exists_unbounded n hprecision hd
  rw [hnearest]
  refine Nat.le_min.mpr ⟨htop, ?_⟩
  by_contra hlt
  have hless : (layout.units found : ℚ) < layout.units code := by
    exact_mod_cast layout.units_strictMono (Nat.lt_of_not_le hlt)
  have hnear := hbest code
  rw [abs_of_nonpos (by linarith), abs_of_nonpos (by linarith)] at hnear
  linarith

/-- A magnitude that is not below the quotient is not below its nearest one. -/
theorem nearest_le (hprecision : 0 < layout.precision) (hd : 0 < d) {code : ℕ}
    (h : layout.inUnits n d ≤ layout.units code) : layout.nearest n d ≤ code := by
  obtain ⟨found, hnearest, hbest, -⟩ := exists_unbounded n hprecision hd
  rw [hnearest]
  refine le_trans (Nat.min_le_right _ _) ?_
  by_contra hlt
  have hless : (layout.units code : ℚ) < layout.units found := by
    exact_mod_cast layout.units_strictMono (Nat.lt_of_not_le hlt)
  have hnear := hbest code
  rw [abs_of_nonneg (by linarith), abs_of_nonneg (by linarith)] at hnear
  linarith

/-- No magnitude is nearer than the nearest one, where it is finite. -/
theorem abs_nearest_sub_le (hprecision : 0 < layout.precision) (hd : 0 < d)
    (hfinite : layout.nearest n d < layout.top) (other : ℕ) :
    |(layout.units (layout.nearest n d) : ℚ) - layout.inUnits n d| ≤
      |(layout.units other : ℚ) - layout.inUnits n d| := by
  obtain ⟨found, hnearest, hbest, -⟩ := exists_unbounded n hprecision hd
  have heq : layout.nearest n d = found := by omega
  rw [heq]
  exact hbest other

/-- The error of rounding to a finite magnitude. -/
theorem abs_nearest_sub_le_max (hprecision : 0 < layout.precision) (hd : 0 < d)
    (hfinite : layout.nearest n d < layout.top) :
    |(layout.units (layout.nearest n d) : ℚ) - layout.inUnits n d| ≤
      max (1 / 2) (layout.inUnits n d / (2 * layout.half)) := by
  obtain ⟨found, hnearest, -, herror⟩ := exists_unbounded n hprecision hd
  have heq : layout.nearest n d = found := by omega
  rw [heq]
  exact herror

end Nearest

/-- Equal quotients have one nearest pattern. -/
theorem nearest_congr {n d n' d' : ℕ} (hd : 0 < d) (hd' : 0 < d')
    (h : n * d' = n' * d) : layout.nearest n d = layout.nearest n' d' := by
  have hcross : n * 2 ^ layout.unit * d' = n' * 2 ^ layout.unit * d := by
    rw [Nat.mul_right_comm, h, Nat.mul_right_comm]
  have hdiv : n * 2 ^ layout.unit / d = n' * 2 ^ layout.unit / d' := by
    rw [← Nat.mul_div_mul_right _ d hd', hcross, Nat.mul_comm d d',
      Nat.mul_div_mul_right _ d' hd]
  have hround : ∀ block : ℕ, roundHalfEven (n * 2 ^ layout.unit) (d * 2 ^ block) =
      roundHalfEven (n' * 2 ^ layout.unit) (d' * 2 ^ block) := by
    intro block
    refine roundHalfEven_congr (Nat.mul_pos hd (Nat.two_pow_pos block))
      (Nat.mul_pos hd' (Nat.two_pow_pos block)) ?_
    have hpos : (0 : ℚ) < (d * 2 ^ block : ℕ) := by
      exact_mod_cast Nat.mul_pos hd (Nat.two_pow_pos block)
    have hpos' : (0 : ℚ) < (d' * 2 ^ block : ℕ) := by
      exact_mod_cast Nat.mul_pos hd' (Nat.two_pow_pos block)
    rw [div_eq_div_iff (ne_of_gt hpos) (ne_of_gt hpos')]
    exact_mod_cast (by rw [← Nat.mul_assoc, hcross, Nat.mul_assoc] :
      n * 2 ^ layout.unit * (d' * 2 ^ block) = n' * 2 ^ layout.unit * (d * 2 ^ block))
  simp only [nearest, hdiv, hround]

/-- Rounding keeps the order: were it to turn two quotients around, both would be
the midpoint of the two magnitudes. -/
theorem nearest_mono {layout : Layout} {n d n' d' : ℕ} (hprecision : 0 < layout.precision)
    (hd : 0 < d) (hd' : 0 < d') (h : layout.inUnits n d ≤ layout.inUnits n' d') :
    layout.nearest n d ≤ layout.nearest n' d' := by
  obtain ⟨code, hcode, hbest, -⟩ := exists_unbounded n hprecision hd
  obtain ⟨other, hother, hbest', -⟩ := exists_unbounded n' hprecision hd'
  by_cases hle : code ≤ other
  · rw [hcode, hother]
    exact min_le_min_left layout.top hle
  · have hlt : (layout.units other : ℚ) < layout.units code := by
      exact_mod_cast layout.units_strictMono (Nat.lt_of_not_le hle)
    have hmiddle : (layout.units other : ℚ) + layout.units code ≤ 2 * layout.inUnits n d := by
      have hnear := hbest other
      rcases abs_cases ((layout.units code : ℚ) - layout.inUnits n d) with hup | hdown <;>
        rcases abs_cases ((layout.units other : ℚ) - layout.inUnits n d) with hup' | hdown' <;>
          linarith
    have hmiddle' : 2 * layout.inUnits n' d' ≤ layout.units other + layout.units code := by
      have hnear := hbest' code
      rcases abs_cases ((layout.units code : ℚ) - layout.inUnits n' d') with hup | hdown <;>
        rcases abs_cases ((layout.units other : ℚ) - layout.inUnits n' d') with hup' | hdown' <;>
          linarith
    have heq : layout.inUnits n d = layout.inUnits n' d' := by linarith
    have hpos : (0 : ℚ) < d := by exact_mod_cast hd
    have hpos' : (0 : ℚ) < d' := by exact_mod_cast hd'
    have hunit : (layout.unitDenominator : ℚ) ≠ 0 := by
      rw [unitDenominator]
      positivity
    have hquotient := mul_right_cancel₀ hunit heq
    rw [div_eq_div_iff (ne_of_gt hpos) (ne_of_gt hpos')] at hquotient
    exact le_of_eq (layout.nearest_congr hd hd' (by exact_mod_cast hquotient))

end Layout

end GraphCalc
