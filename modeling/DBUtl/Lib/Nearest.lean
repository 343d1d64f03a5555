import Mathlib.Algebra.BigOperators.Group.List.Defs
import Mathlib.Algebra.Order.Field.Basic
import Mathlib.Order.Monotone.Defs
import Mathlib.Tactic.Linarith
import Mathlib.Tactic.Ring

/-!
# Rounding to a nearest point

A number system is a set `S` of points on the line, and rounding sends a number to a point of `S`
that no other is nearer to. Which of two points it takes half way between them does not matter for
what is here: rounding keeps the order, leaves the points of `S` where they are, and so never
crosses one.

* `Nearest` — rounding to a nearest point.
* `Nearest.monotone`, `Nearest.eq_self` — its two rules.
* `foldl_near` — the error of a loop that adds up.
-/

namespace DBUtl

variable {K : Type*} [Field K] [LinearOrder K] [IsStrictOrderedRing K]

/-- `r` sends every number to a nearest point of `S`. -/
structure Nearest (S : Set K) (r : K → K) : Prop where
  mem : ∀ x, r x ∈ S
  le : ∀ x, ∀ y ∈ S, |r x - x| ≤ |y - x|

namespace Nearest

variable {S : Set K} {r : K → K} {x y : K}

theorem eq_self (h : Nearest S r) (hx : x ∈ S) : r x = x := by
  have hle := h.le x x hx
  rw [sub_self, abs_zero] at hle
  exact sub_eq_zero.mp (abs_nonpos_iff.mp hle)

/-- **Rounding keeps the order.** If the images were in the wrong order, `x` would lie above the
point half way between them, and `y` below. -/
theorem monotone (h : Nearest S r) : Monotone r := by
  intro x y hxy
  by_contra hlt
  rw [not_le] at hlt
  have hne : x ≠ y := by
    rintro rfl
    exact lt_irrefl _ hlt
  have hx := sq_le_sq.mpr (h.le x (r y) (h.mem y))
  have hy := sq_le_sq.mpr (h.le y (r x) (h.mem x))
  have hpos := mul_pos (sub_pos.mpr hlt) (sub_pos.mpr (lt_of_le_of_ne hxy hne))
  nlinarith only [hx, hy, hpos]

theorem le_of_le (h : Nearest S r) (hy : y ∈ S) (hle : x ≤ y) : r x ≤ y := by
  rw [← h.eq_self hy]
  exact h.monotone hle

theorem ge_of_ge (h : Nearest S r) (hy : y ∈ S) (hle : y ≤ x) : y ≤ r x := by
  rw [← h.eq_self hy]
  exact h.monotone hle

/-- A number nearer to the point `a` than to `b` is not rounded up to `b`. -/
theorem lt_of_lt_mid {a b : K} (h : Nearest S r) (ha : a ∈ S) (hab : a < b)
    (hx : x < (a + b) / 2) : r x < b := by
  rcases le_or_gt x a with hle | hgt
  · exact (h.le_of_le ha hle).trans_lt hab
  · have hnear := h.le x a ha
    rw [abs_of_neg (sub_neg.mpr hgt)] at hnear
    have hdist := (le_abs_self _).trans hnear
    linarith

end Nearest

/-- **The error of a loop that adds up**, from the error of one step. `I k` is the invariant of the
accumulator after `k` of at most `N` steps. -/
theorem foldl_near {α β : Type*} {f : β → α → β} {val : β → K} {term : α → K} {P : α → Prop}
    {I : ℕ → β → Prop} {N : ℕ} {e : K}
    (hstep : ∀ k < N, ∀ b a, I k b → P a →
      I (k + 1) (f b a) ∧ |val (f b a) - (val b + term a)| ≤ e) :
    ∀ {k : ℕ} {b : β} {xs : List α}, (∀ a ∈ xs, P a) → k + xs.length ≤ N → I k b →
      I (k + xs.length) (xs.foldl f b) ∧
        |val (xs.foldl f b) - (val b + (xs.map term).sum)| ≤ xs.length * e
  | k, b, [], _, _, hb => by simpa using hb
  | k, b, a :: xs, hP, hlen, hb => by
    rw [List.forall_mem_cons] at hP
    rw [List.length_cons] at hlen
    obtain ⟨hb', herr⟩ := hstep k (by omega) b a hb hP.1
    obtain ⟨hlast, hrest⟩ := foldl_near hstep hP.2 (show k + 1 + xs.length ≤ N by omega) hb'
    refine ⟨by rwa [List.length_cons, Nat.add_comm xs.length, ← Nat.add_assoc], ?_⟩
    rw [List.foldl_cons, List.map_cons, List.sum_cons, List.length_cons, Nat.cast_succ, add_mul,
      one_mul]
    -- the error of the first step is carried along
    calc |val (xs.foldl f (f b a)) - (val b + (term a + (xs.map term).sum))|
        = |(val (xs.foldl f (f b a)) - (val (f b a) + (xs.map term).sum)) +
            (val (f b a) - (val b + term a))| := by
          congr 1
          ring
      _ ≤ |val (xs.foldl f (f b a)) - (val (f b a) + (xs.map term).sum)| +
            |val (f b a) - (val b + term a)| := abs_add_le _ _
      _ ≤ xs.length * e + e := add_le_add hrest herr

end DBUtl
