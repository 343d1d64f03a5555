import DBUtl.RNG2Proof
import DBUtl.RNGDouble

/-!
# Draws of `RNG2` in floating point

`RNG2::rand` scales the integer `iy` by `1 / IM1`, in `double`, and clamps it at `1 - 3e-16`. No
draw needs the clamp: the largest is `1 - 1 / IM1`, which the errors of two roundings leave below
`1 - 2⁻³²`. `randf` rounds it once more, to 24 bits, and there is no number of these between
`1 - 2⁻²⁴` and `1`. So the 63 largest values of `iy` come out as `1`.

* `draw_mem`, `draw_sound` — the draws as `double` and as integers.
* `randf_eq_one_iff` — the draws as `float`.
-/

namespace DBUtl

namespace RNG2

open IEEE (nearest64 nearest32)

/-! ## The methods -/

namespace IEEE

def EPS : F64 := Binary.round 53 (3 / 10 ^ 16)
def RNMX : F64 := ((1 : ℕ) : F64) - EPS
def AM : F64 := ((1 : ℕ) : F64) / Binary.round 53 IM1

/-- The returned value: `iy` scaled to the unit interval, and clamped. -/
def scaled (iy : ℤ) : F64 :=
  let temp := AM * Binary.round 53 iy
  if temp.val > RNMX.val then RNMX else temp

/-- The integers of `rand` are as before. -/
def rand (g : RNG2) : Option (F64 × RNG2) := g.rand.map fun (_, g') => (scaled g'.iy, g')

/-- `(float)(rand())`. -/
def randf (g : RNG2) : Option (F32 × RNG2) := do
  let (x, g') ← rand g
  some (Binary.round 24 x.val, g')

def select (n : U32) (g : RNG2) : Option (U32 × RNG2) := do
  let (x, g') ← rand g
  (DBUtl.IEEE.selectFrom n x).map (·, g')

def uniformInt (minValue limitValue : Int32) (g : RNG2) : Option (Int32 × RNG2) := do
  let (x, g') ← rand g
  (DBUtl.IEEE.uniformIntFrom minValue limitValue x).map (·, g')

/-! ## The constants -/

theorem one_val : ((1 : ℕ) : F64).val = 1 := by
  rw [Binary.natCast_val (by decide) (by decide), Nat.cast_one]

theorem AM_val : AM.val = binaryRound 53 (1 / 2147483563) := by
  have hIM1 : binaryRound 53 ((IM1 : ℤ) : ℚ) = 2147483563 := by
    rw [nearest64.eq_self (isBinary_intCast (by decide))]
    norm_num [IM1]
  rw [AM, Binary.div_val, one_val, Binary.round_val, hIM1]

theorem AM_bounds :
    1 / 2147483563 * (1 - 1 / 2 ^ 53) ≤ AM.val ∧ AM.val ≤ 1 / 2147483563 * (1 + 1 / 2 ^ 53) := by
  have herr := abs_le.mp (abs_binaryRound_sub_le 53 (1 / 2147483563))
  rw [AM_val]
  rw [abs_of_pos (by norm_num)] at herr
  constructor <;> linarith [herr.1, herr.2]

/-- The clamp is above every draw. -/
theorem le_RNMX : 1 - 1 / 2 ^ 32 ≤ RNMX.val := by
  have hEPS : EPS.val ≤ 1 / 2 ^ 32 :=
    nearest64.le_of_le ⟨1, -32, by norm_num, by norm_num⟩ (by norm_num)
  rw [RNMX, Binary.sub_val, one_val]
  exact nearest64.ge_of_ge ⟨2 ^ 32 - 1, -32, by norm_num, by norm_num⟩ (by linarith)

/-! ## A draw -/

section Draw

variable {iy : ℤ}

/-- The product before it is clamped, with the errors of the two roundings. -/
theorem temp_bounds {iy : ℤ} (h0 : 0 < iy) (hlt : iy < 2 ^ 53) :
    iy / 2147483563 * (1 - 1 / 2 ^ 53) ^ 2 ≤ (AM * Binary.round 53 iy).val ∧
      (AM * Binary.round 53 iy).val ≤ iy / 2147483563 * (1 + 1 / 2 ^ 53) ^ 2 := by
  have hiy : binaryRound 53 (iy : ℚ) = iy :=
    nearest64.eq_self (isBinary_intCast (by rw [abs_of_pos h0]; exact hlt.le))
  have hpos : (0 : ℚ) < iy := by exact_mod_cast h0
  obtain ⟨hlo, hhi⟩ := AM_bounds
  have hlo' := mul_le_mul_of_nonneg_right hlo hpos.le
  have hhi' := mul_le_mul_of_nonneg_right hhi hpos.le
  have hprod : 0 ≤ AM.val * iy := le_trans (by positivity) hlo'
  obtain ⟨herr₁, herr₂⟩ := abs_le.mp (abs_binaryRound_sub_le 53 (AM.val * iy))
  rw [abs_of_nonneg hprod] at herr₁ herr₂
  rw [Binary.mul_val, Binary.round_val, hiy]
  constructor
  · have hstep := mul_le_mul_of_nonneg_right hlo' (show (0 : ℚ) ≤ 1 - 1 / 2 ^ 53 by norm_num)
    calc (iy : ℚ) / 2147483563 * (1 - 1 / 2 ^ 53) ^ 2
        = 1 / 2147483563 * (1 - 1 / 2 ^ 53) * iy * (1 - 1 / 2 ^ 53) := by ring
      _ ≤ AM.val * iy * (1 - 1 / 2 ^ 53) := hstep
      _ ≤ binaryRound 53 (AM.val * iy) := by linarith
  · have hstep := mul_le_mul_of_nonneg_right hhi' (show (0 : ℚ) ≤ 1 + 1 / 2 ^ 53 by norm_num)
    calc binaryRound 53 (AM.val * iy) ≤ AM.val * iy * (1 + 1 / 2 ^ 53) := by linarith
      _ ≤ 1 / 2147483563 * (1 + 1 / 2 ^ 53) * iy * (1 + 1 / 2 ^ 53) := hstep
      _ = iy / 2147483563 * (1 + 1 / 2 ^ 53) ^ 2 := by ring

/-- A value of `iy`, as a rational. -/
theorem iy_cast_mem (hlo : 1 ≤ iy) (hhi : iy ≤ IMM1) :
    (1 : ℚ) ≤ iy ∧ (iy : ℚ) ≤ 2147483562 := by
  have hmax : iy ≤ 2147483562 := hhi
  exact ⟨by exact_mod_cast hlo, by exact_mod_cast hmax⟩

/-- **No draw is clamped**, and none comes near `0` or `1`. -/
theorem scaled_mem (hlo : 1 ≤ iy) (hhi : iy ≤ IMM1) :
    scaled iy = AM * Binary.round 53 iy ∧ 1 / 2 ^ 32 ≤ (scaled iy).val ∧
      (scaled iy).val ≤ 1 - 1 / 2 ^ 32 := by
  have hmax : iy ≤ 2147483562 := hhi
  obtain ⟨hone, hlast⟩ := iy_cast_mem hlo hhi
  obtain ⟨hlow, hup⟩ := temp_bounds (show 0 < iy by omega) (by omega)
  have hle : (AM * Binary.round 53 iy).val ≤ 1 - 1 / 2 ^ 32 := by
    norm_num at hup ⊢
    linarith
  have hge : 1 / 2 ^ 32 ≤ (AM * Binary.round 53 iy).val := by
    norm_num at hlow ⊢
    linarith
  have hscaled : scaled iy = AM * Binary.round 53 iy :=
    if_neg (not_lt.mpr (hle.trans le_RNMX))
  rw [hscaled]
  exact ⟨rfl, hge, hle⟩

/-- Between `1 - 2⁻²⁴` and `1` there is no `float`. -/
theorem binaryRound_eq_one_iff {x : ℚ} (hx : x ≤ 1) (hne : x ≠ 1 - 1 / 2 ^ 25) :
    binaryRound 24 x = 1 ↔ 1 - 1 / 2 ^ 25 < x := by
  constructor
  · intro hround
    by_contra hle
    have hlt : x < 1 - 1 / 2 ^ 25 := lt_of_le_of_ne (not_lt.mp hle) hne
    have hbelow : binaryRound 24 x < 1 :=
      nearest32.lt_of_lt_mid (a := 1 - 1 / 2 ^ 24) ⟨2 ^ 24 - 1, -24, by norm_num, by norm_num⟩
        (by norm_num) (hlt.trans_eq (by norm_num))
    exact hbelow.ne hround
  · intro hlt
    have hround : roundEven (x / 2 ^ (-1 + 1 - (24 : ℕ) : ℤ)) = 2 ^ 24 := by
      apply roundEven_eq
      rw [abs_lt]
      norm_num at hlt ⊢
      constructor <;> linarith
    rcases hx.lt_or_eq with hx | rfl
    · have hpos : 0 < x := lt_trans (by norm_num) hlt
      rw [binaryRound_eq (L := -1) ?_ ?_, hround]
      · norm_num
      · rw [abs_of_pos hpos]
        norm_num at hlt ⊢
        linarith
      · rw [abs_of_pos hpos]
        norm_num
        exact hx
    · exact nearest32.eq_self ⟨1, 0, by norm_num, by norm_num⟩

/-- **The 63 largest values** of `iy` are `1` as a `float`. The 64th is nearer to `1 - 2⁻²⁴`, by
more than the errors of the `double`. -/
theorem round_scaled_eq_one_iff (hlo : 1 ≤ iy) (hhi : iy ≤ IMM1) :
    (Binary.round 24 (scaled iy).val).val = 1 ↔ 2147483500 ≤ iy := by
  have hmax : iy ≤ 2147483562 := hhi
  obtain ⟨htemp, -, hle⟩ := scaled_mem hlo hhi
  obtain ⟨hlow, hup⟩ := temp_bounds (show 0 < iy by omega) (by omega)
  rw [← htemp] at hlow hup
  rcases le_or_gt 2147483500 iy with hge | hlt
  · have hgeq : (2147483500 : ℚ) ≤ iy := by exact_mod_cast hge
    have habove : 1 - 1 / 2 ^ 25 < (scaled iy).val := by
      norm_num at hlow ⊢
      linarith
    rw [Binary.round_val, binaryRound_eq_one_iff (hle.trans (by norm_num)) habove.ne']
    exact iff_of_true habove hge
  · have hltq : (iy : ℚ) ≤ 2147483499 := by exact_mod_cast (show iy ≤ 2147483499 by omega)
    have hbelow : (scaled iy).val < 1 - 1 / 2 ^ 25 := by
      norm_num at hup ⊢
      linarith
    rw [Binary.round_val, binaryRound_eq_one_iff (hle.trans (by norm_num)) hbelow.ne]
    exact iff_of_false hbelow.not_gt (not_le.mpr hlt)

end Draw

/-! ## Draws in a reachable state -/

/-- **Draws of `RNG2` in floating point.** For every seed and after any number of draws, the
`double` is between `0` and `1` and scaled integers are in their range; the `float` is above `0`,
and it is `1` exactly for the 63 largest values of `iy`. -/
theorem draws_mem (raw : Vector ℤ NTAB) (seed : Int32) (n : ℕ) :
    ∃ g₀ g x y g', new raw seed = some g₀ ∧ g₀.after n = some g ∧ rand g = some (x, g') ∧
      randf g = some (y, g') ∧ (0 < x.val ∧ x.val < 1) ∧ (0 < y.val ∧ y.val ≤ 1) ∧
      (y.val = 1 ↔ 2147483500 ≤ g'.iy) ∧
      (∀ k ≠ 0, ∃ r, select k g = some (r, g') ∧ r < k) ∧
      ∀ minValue limitValue, minValue < limitValue → ∃ r,
        uniformInt minValue limitValue g = some (r, g') ∧ minValue ≤ r ∧ r < limitValue := by
  obtain ⟨g₀, g, g', hnew, hg, -, hdraw, hlo, hhi⟩ := rand_after raw seed n
  obtain ⟨-, hlow, hup⟩ := scaled_mem hlo hhi
  have hrand : rand g = some (scaled g'.iy, g') := by rw [rand, hdraw, Option.map_some]
  have hpos : 0 < (scaled g'.iy).val := lt_of_lt_of_le (by norm_num) hlow
  refine ⟨g₀, g, scaled g'.iy, Binary.round 24 (scaled g'.iy).val, g', hnew, hg, hrand,
    by simp [randf, hrand], ⟨hpos, lt_of_le_of_lt hup (by norm_num)⟩, ⟨?_, ?_⟩,
    round_scaled_eq_one_iff hlo hhi, fun k hk => ?_, fun minValue limitValue hlt => ?_⟩
  · have hge := nearest32.ge_of_ge (y := 1 / 2 ^ 32) ⟨1, -32, by norm_num, by norm_num⟩ hlow
    exact lt_of_lt_of_le (by norm_num) hge
  · exact nearest32.le_of_le ⟨1, 0, by norm_num, by norm_num⟩ (hup.trans (by norm_num))
  · obtain ⟨r, hr, hrk⟩ := DBUtl.IEEE.selectFrom_lt hpos.le hup hk
    exact ⟨r, by simp [select, hrand, hr], hrk⟩
  · obtain ⟨r, hr, hmem⟩ := DBUtl.IEEE.uniformIntFrom_mem hpos.le hup hlt
    exact ⟨r, by simp [uniformInt, hrand, hr], hmem⟩

/-- The first draw from the seed `19394176` is `1` as a `float`. -/
theorem randf_one (raw : Vector ℤ NTAB) :
    ∃ g₀ y g', new raw 19394176 = some g₀ ∧ randf g₀ = some (y, g') ∧ y.val = 1 := by
  obtain ⟨g₀, hnew, htracks⟩ := tracks_new raw 19394176
  obtain ⟨g', hdraw, htracks'⟩ := tracks_rand (fits_toInt _) htracks
  have hiy : g'.iy = 2147483507 := by
    rw [htracks'.iy]
    decide +kernel
  have hone : (Binary.round 24 (scaled g'.iy).val).val = 1 := by
    rw [round_scaled_eq_one_iff (by rw [hiy]; decide) (by rw [hiy]; decide), hiy]
    decide
  exact ⟨g₀, _, g', hnew, by simp [randf, rand, hdraw], hone⟩

end IEEE

end RNG2

end DBUtl
