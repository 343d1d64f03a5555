import DBUtl.Lib.Nearest
import Mathlib.Algebra.Order.Round
import Mathlib.Data.Int.Log
import Mathlib.Data.Rat.Floor
import Mathlib.Tactic.FieldSimp
import Mathlib.Tactic.Positivity
import Mathlib.Tactic.Ring

/-!
# Binary floating-point numbers

Numbers `m * 2 ^ e` with `p` significant bits, and the arithmetic that rounds every exact result
to the nearest of them, ties to the even one. The exponent is not bounded, so that nothing overflows
and nothing underflows: where a format stays within its range of exponents, this is its arithmetic.

* `binaryRound_nearest` — rounding is to a nearest number.
* `abs_binaryRound_sub_le` — and its error, relative to what is rounded.
* `Binary` — the numbers, with their arithmetic.
-/

namespace DBUtl

/-- `x` has at most `p` significant bits. -/
def IsBinary (p : ℕ) (x : ℚ) : Prop := ∃ m e : ℤ, |m| ≤ 2 ^ p ∧ x = m * 2 ^ e

/-! ## Rounding to an integer -/

/-- The nearest integer, and the even one of two. -/
def roundEven (x : ℚ) : ℤ :=
  if Int.fract x = 1 / 2 then (if Even ⌊x⌋ then ⌊x⌋ else ⌊x⌋ + 1) else round x

theorem abs_sub_roundEven (x : ℚ) : |x - roundEven x| = |x - round x| := by
  unfold roundEven
  split_ifs with htie
  · have hx : x - ⌊x⌋ = 1 / 2 := htie
    rw [abs_sub_round_eq_min, htie, hx]
    norm_num
  · have hx : x - (⌊x⌋ + 1 : ℤ) = -(1 / 2) := by
      have hfract : x - ⌊x⌋ = 1 / 2 := htie
      push_cast
      linarith
    rw [abs_sub_round_eq_min, htie, hx]
    norm_num
  · rfl

theorem abs_sub_roundEven_le (x : ℚ) : |x - roundEven x| ≤ 1 / 2 :=
  (abs_sub_roundEven x).trans_le (abs_sub_round x)

theorem roundEven_le (x : ℚ) (z : ℤ) : |x - roundEven x| ≤ |x - z| :=
  (abs_sub_roundEven x).trans_le (round_le x z)

/-- An integer within a half is the one rounded to. -/
theorem roundEven_eq {x : ℚ} {z : ℤ} (h : |x - z| < 1 / 2) : roundEven x = z := by
  have hle := abs_sub_roundEven_le x
  have hdist : |((roundEven x - z : ℤ) : ℚ)| < 1 := by
    push_cast
    calc |(roundEven x : ℚ) - z| = |(x - z) - (x - roundEven x)| := by ring_nf
      _ ≤ |x - z| + |x - roundEven x| := abs_sub _ _
      _ < 1 := by linarith
  have hzero : |roundEven x - z| < 1 := by exact_mod_cast hdist
  have := Int.abs_lt_one_iff.mp hzero
  omega

/-! ## Rounding to `p` bits -/

/-- The last place of a number of the size of `x`. -/
def lastPlace (p : ℕ) (x : ℚ) : ℚ := 2 ^ (Int.log 2 |x| + 1 - p)

def binaryRound (p : ℕ) (x : ℚ) : ℚ := roundEven (x / lastPlace p x) * lastPlace p x

section Round

variable {p : ℕ} {x y : ℚ}

theorem lastPlace_pos (p : ℕ) (x : ℚ) : 0 < lastPlace p x :=
  zpow_pos two_pos _

/-- The first bit of `x` stands `p - 1` places before the last. -/
theorem lastPlace_mul (p : ℕ) (x : ℚ) : lastPlace p x * 2 ^ p = 2 * 2 ^ Int.log 2 |x| := by
  unfold lastPlace
  rw [← zpow_natCast, ← zpow_add₀ two_ne_zero, ← zpow_one_add₀ two_ne_zero]
  congr 1
  ring

theorem two_zpow_log_le (hx : x ≠ 0) : (2 : ℚ) ^ Int.log 2 |x| ≤ |x| := by
  have h := Int.zpow_log_le_self (b := 2) (r := |x|) (by decide) (abs_pos.mpr hx)
  exact_mod_cast h

theorem abs_lt_two_zpow (x : ℚ) : |x| < 2 * 2 ^ Int.log 2 |x| := by
  have h := Int.lt_zpow_succ_log_self (b := 2) (by decide) |x|
  rw [← zpow_one_add₀ two_ne_zero, add_comm]
  exact_mod_cast h

theorem binaryRound_sub (p : ℕ) (x : ℚ) :
    |binaryRound p x - x| =
      |x / lastPlace p x - roundEven (x / lastPlace p x)| * lastPlace p x := by
  have hpos := lastPlace_pos p x
  rw [abs_sub_comm, ← abs_of_pos hpos, ← abs_mul, abs_of_pos hpos, sub_mul,
    div_mul_cancel₀ _ hpos.ne', binaryRound]

/-- A multiple of the last place is no nearer. -/
theorem abs_binaryRound_sub_le_of_mul (p : ℕ) (x : ℚ) (z : ℤ) :
    |binaryRound p x - x| ≤ |z * lastPlace p x - x| := by
  have hpos := lastPlace_pos p x
  have hz : |z * lastPlace p x - x| = |x / lastPlace p x - z| * lastPlace p x := by
    rw [abs_sub_comm, ← abs_of_pos hpos, ← abs_mul, abs_of_pos hpos, sub_mul,
      div_mul_cancel₀ _ hpos.ne']
  rw [binaryRound_sub, hz]
  exact mul_le_mul_of_nonneg_right (roundEven_le _ z) hpos.le

/-- **The error** is at most half of the last place. -/
theorem abs_binaryRound_sub_le (p : ℕ) (x : ℚ) : |binaryRound p x - x| ≤ |x| / 2 ^ p := by
  rcases eq_or_ne x 0 with rfl | hx
  · simpa using abs_binaryRound_sub_le_of_mul p 0 0
  have hhalf := mul_le_mul_of_nonneg_right (abs_sub_roundEven_le (x / lastPlace p x))
    (lastPlace_pos p x).le
  have hlast := lastPlace_mul p x
  have hlog := two_zpow_log_le hx
  rw [binaryRound_sub, le_div_iff₀ (by positivity)]
  have hpow : (0 : ℚ) < 2 ^ p := by positivity
  nlinarith only [hhalf, hlast, hlog, hpow]

theorem abs_binaryRound_sub_le_of_le (h : |x| ≤ y) : |binaryRound p x - x| ≤ y / 2 ^ p :=
  (abs_binaryRound_sub_le p x).trans (div_le_div_of_nonneg_right h (by positivity))

theorem abs_binaryRound_le (p : ℕ) (x : ℚ) : |binaryRound p x| ≤ |x| * (1 + 1 / 2 ^ p) := by
  have hsub := abs_sub_abs_le_abs_sub (binaryRound p x) x
  have herr := abs_binaryRound_sub_le p x
  rw [mul_add, mul_one, mul_one_div]
  linarith

theorem isBinary_binaryRound (p : ℕ) (x : ℚ) : IsBinary p (binaryRound p x) := by
  refine ⟨roundEven (x / lastPlace p x), Int.log 2 |x| + 1 - p, ?_, rfl⟩
  -- `2 ^ p` last places lie beyond `x`, so that the nearest multiple is not farther out
  have hpos := lastPlace_pos p x
  have hlt := abs_lt_two_zpow x
  rw [← lastPlace_mul p x, ← div_lt_iff₀' hpos, ← abs_of_pos hpos, ← abs_div] at hlt
  obtain ⟨hlo, hhi⟩ := abs_lt.mp hlt
  obtain ⟨herr₁, herr₂⟩ := abs_le.mp (abs_sub_roundEven_le (x / lastPlace p x))
  have hupper : (roundEven (x / lastPlace p x) : ℚ) < ((2 ^ p + 1 : ℤ) : ℚ) := by
    push_cast
    linarith
  have hlower : ((-(2 ^ p + 1) : ℤ) : ℚ) < (roundEven (x / lastPlace p x) : ℚ) := by
    push_cast
    linarith
  have h₁ := Int.cast_lt.mp hupper
  have h₂ := Int.cast_lt.mp hlower
  rw [abs_le]
  omega

/-- A number with a smaller last place has a multiple of that of `x` between it and `x`. -/
theorem isBinary_far {m e : ℤ} (hm : |m| ≤ 2 ^ p)
    (he : e < Int.log 2 |x| + 1 - p) : |(m : ℚ) * 2 ^ e| ≤ 2 ^ Int.log 2 |x| := by
  have hmq : |(m : ℚ)| ≤ 2 ^ p := by exact_mod_cast hm
  have hpow : (2 : ℚ) ^ p * 2 ^ e ≤ 2 ^ Int.log 2 |x| := by
    rw [← zpow_natCast, ← zpow_add₀ two_ne_zero]
    exact zpow_le_zpow_right₀ one_le_two (by omega)
  have hpos : (0 : ℚ) < 2 ^ e := zpow_pos two_pos e
  rw [abs_mul, abs_of_pos hpos]
  exact (mul_le_mul_of_nonneg_right hmq hpos.le).trans hpow

/-- **Rounding is to a nearest number.** -/
theorem binaryRound_nearest (hp : 0 < p) : Nearest {x | IsBinary p x} (binaryRound p) where
  mem := isBinary_binaryRound p
  le x y hy := by
    obtain ⟨m, e, hm, rfl⟩ := hy
    rcases eq_or_ne x 0 with rfl | hx
    · have hzero : binaryRound p 0 = 0 := by simp [binaryRound, roundEven]
      rw [hzero, sub_self, abs_zero]
      exact abs_nonneg _
    by_cases he : Int.log 2 |x| + 1 - p ≤ e
    · -- `y` is a multiple of the last place of `x`
      obtain ⟨k, rfl⟩ := Int.exists_add_of_le he
      have hmul : (m : ℚ) * 2 ^ (Int.log 2 |x| + 1 - p + k) =
          ((m * 2 ^ k : ℤ) : ℚ) * lastPlace p x := by
        rw [zpow_add₀ two_ne_zero, lastPlace, zpow_natCast]
        push_cast
        ring
      rw [hmul]
      exact abs_binaryRound_sub_le_of_mul p x _
    · -- the power of two below `x` lies between, and is one
      have hfar := isBinary_far hm (not_le.mp he)
      have hlog := two_zpow_log_le hx
      have hone : ((2 ^ (p - 1) : ℤ) : ℚ) * lastPlace p x = 2 ^ Int.log 2 |x| := by
        have hmul := lastPlace_mul p x
        obtain ⟨q, rfl⟩ := Nat.exists_eq_succ_of_ne_zero hp.ne'
        rw [Nat.succ_eq_add_one, pow_succ] at hmul
        rw [Nat.succ_eq_add_one, Nat.add_sub_cancel]
        push_cast
        linarith
      obtain ⟨hy₁, hy₂⟩ := abs_le.mp hfar
      rcases lt_or_gt_of_ne hx with hneg | hpos
      · refine (abs_binaryRound_sub_le_of_mul p x (-2 ^ (p - 1))).trans ?_
        rw [abs_of_neg hneg] at hlog hone hy₁
        have hcast : ((-2 ^ (p - 1) : ℤ) : ℚ) * lastPlace p x = -2 ^ Int.log 2 (-x) := by
          rw [← hone]
          push_cast
          ring
        rw [hcast, abs_of_nonneg (by linarith), abs_of_nonneg (by linarith)]
        linarith
      · refine (abs_binaryRound_sub_le_of_mul p x (2 ^ (p - 1))).trans ?_
        rw [abs_of_pos hpos] at hlog hone hy₂
        rw [hone, abs_of_nonpos (by linarith), abs_of_nonpos (by linarith)]
        linarith

/-- Rounding, when the place of the first bit is known. -/
theorem binaryRound_eq {L : ℤ} (hlo : 2 ^ L ≤ |x|) (hhi : |x| < 2 ^ (L + 1)) :
    binaryRound p x = roundEven (x / 2 ^ (L + 1 - p)) * 2 ^ (L + 1 - p) := by
  have hpos : 0 < |x| := (zpow_pos two_pos L).trans_le hlo
  have hlog : Int.log 2 |x| = L := by
    have hge : L ≤ Int.log 2 |x| :=
      (Int.zpow_le_iff_le_log (b := 2) (by decide) hpos).mp (by exact_mod_cast hlo)
    have hlt : Int.log 2 |x| < L + 1 :=
      (Int.lt_zpow_iff_log_lt (b := 2) (by decide) hpos).mp (by exact_mod_cast hhi)
    omega
  rw [binaryRound, lastPlace, hlog]

end Round

/-! ## The numbers -/

theorem IsBinary.mono {p q : ℕ} (hpq : p ≤ q) {x : ℚ} : IsBinary p x → IsBinary q x := by
  rintro ⟨m, e, hm, rfl⟩
  exact ⟨m, e, hm.trans (pow_le_pow_right₀ (by decide) hpq), rfl⟩

theorem isBinary_intCast {p : ℕ} {z : ℤ} (hz : |z| ≤ 2 ^ p) : IsBinary p z :=
  ⟨z, 0, hz, by simp⟩

theorem isBinary_natCast {p k : ℕ} (hk : k ≤ 2 ^ p) : IsBinary p k := by
  refine ⟨k, 0, ?_, by simp⟩
  rw [Nat.abs_cast]
  exact_mod_cast hk

/-- A number with `p` significant bits. -/
structure Binary (p : ℕ) where
  val : ℚ
  isBinary : IsBinary p val

namespace Binary

variable {p : ℕ}

@[ext] theorem ext {a b : Binary p} (h : a.val = b.val) : a = b := by
  cases a
  cases b
  cases h
  rfl

/-- The nearest number. -/
def round (p : ℕ) (x : ℚ) : Binary p := ⟨binaryRound p x, isBinary_binaryRound p x⟩

instance : Add (Binary p) := ⟨fun a b => round p (a.val + b.val)⟩
instance : Sub (Binary p) := ⟨fun a b => round p (a.val - b.val)⟩
instance : Mul (Binary p) := ⟨fun a b => round p (a.val * b.val)⟩
instance : Div (Binary p) := ⟨fun a b => round p (a.val / b.val)⟩
instance : NatCast (Binary p) := ⟨fun k => round p k⟩

@[simp] theorem round_val (x : ℚ) : (round p x).val = binaryRound p x := rfl

theorem add_val (a b : Binary p) : (a + b).val = binaryRound p (a.val + b.val) := rfl

theorem sub_val (a b : Binary p) : (a - b).val = binaryRound p (a.val - b.val) := rfl

theorem mul_val (a b : Binary p) : (a * b).val = binaryRound p (a.val * b.val) := rfl

theorem div_val (a b : Binary p) : (a / b).val = binaryRound p (a.val / b.val) := rfl

/-- A natural number of `p` bits is exact. -/
theorem natCast_val (hp : 0 < p) {k : ℕ} (hk : k ≤ 2 ^ p) : ((k : Binary p)).val = k :=
  (binaryRound_nearest hp).eq_self (isBinary_natCast hk)

end Binary

end DBUtl
