import Mathlib.Algebra.Order.Floor.Ring
import Mathlib.Algebra.Order.Floor.Semiring
import Mathlib.Tactic.FieldSimp
import Mathlib.Tactic.Linarith

/-!
# Integers from a grid of reals

A random integer below `n` is made from a real `x` of the unit interval as `⌊n x⌋`. The reals come
from a grid, the multiples `w c` with `w ≤ W`. If the grid is fine enough, an integer comes out
exactly when the last point of the grid, scaled, is not below it.
-/

namespace DBUtl.Scaling

variable {K : Type*} [Field K] [LinearOrder K] [IsStrictOrderedRing K] [FloorRing K]

theorem floor_mem {n : ℕ} {x : K} (hn : 0 < n) (h0 : 0 ≤ x) (h1 : x < 1) :
    0 ≤ ⌊(n : K) * x⌋ ∧ ⌊(n : K) * x⌋ < n := by
  have hpos : (0 : K) < n := by exact_mod_cast hn
  constructor
  · exact Int.floor_nonneg.2 (mul_nonneg hpos.le h0)
  · rw [Int.floor_lt, Int.cast_natCast]
    exact mul_lt_of_lt_one_right hpos h1

/-- **On a fine grid an integer comes out exactly if the last point is scaled to as much.** The
first point from `k / n` on gives `k`. -/
theorem exists_floor_eq_iff {c : K} (hc : 0 < c) {n W k : ℕ} (hn : 0 < n)
    (hfine : (n : K) * c ≤ 1) :
    (∃ w ≤ W, ⌊(n : K) * (w * c)⌋ = k) ↔ (k : K) ≤ n * (W * c) := by
  have hpos : (0 : K) < n := by exact_mod_cast hn
  have hnc : 0 < (n : K) * c := mul_pos hpos hc
  constructor
  · rintro ⟨w, hw, hfloor⟩
    have hle := (Int.floor_eq_iff.1 hfloor).1
    have hwc : (w : K) * c ≤ W * c := mul_le_mul_of_nonneg_right (by exact_mod_cast hw) hc.le
    rw [Int.cast_natCast] at hle
    exact hle.trans (mul_le_mul_of_nonneg_left hwc hpos.le)
  · intro hlast
    have hw0 : (0 : K) ≤ k / (n * c) := by positivity
    refine ⟨⌈(k : K) / (n * c)⌉₊, ?_, ?_⟩
    · rw [Nat.ceil_le, div_le_iff₀ hnc]
      linarith
    · have hlo := Nat.le_ceil ((k : K) / (n * c))
      have hhi := Nat.ceil_lt_add_one hw0
      rw [div_le_iff₀ hnc] at hlo
      rw [← sub_lt_iff_lt_add, lt_div_iff₀ hnc] at hhi
      rw [Int.floor_eq_iff, Int.cast_natCast]
      constructor
      · linarith
      · linarith

end DBUtl.Scaling
