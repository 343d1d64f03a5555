import DBUtl.Lib.Checked
import Mathlib.Tactic.Linarith
import Mathlib.Tactic.Positivity
import Mathlib.Tactic.Ring

/-!
# Schrage's modular product

To compute `A * x mod M` without leaving the signed type, write `M = A * Q + R`, divide `x` by
`Q`, and form `A * (x - k * Q) - k * R`, which is `A * x - k * M`. When `Q` and `R` are of the
right size the two products stay below `M`, so one addition of `M` at most brings the difference
into range.

The division truncates towards zero, as in C. The result is the Euclidean remainder for every
`x` of the type, at or above the modulus and below zero as well.
-/

namespace DBUtl

/-- The constants of a Schrage product in a type with `w` value bits. -/
structure Schrage (w : ℕ) (A Q R M : ℤ) : Prop where
  split : M = A * Q + R
  A_nonneg : 0 ≤ A
  Q_pos : 0 < Q
  R_nonneg : 0 ≤ R
  /-- The product with a remainder by `Q` stays below the modulus. -/
  low : A * (Q - 1) < M
  /-- So does the product with the largest quotient. -/
  high : 2 ^ w / Q * R < M
  M_le : M ≤ 2 ^ w

namespace Schrage

variable {w : ℕ} {A Q R M x : ℤ}

/-! ## The parts -/

/-- Truncating division of a nonnegative `x`: quotient and remainder are nonnegative. -/
theorem tdiv_nonneg (hQ : 0 < Q) (hx : Fits w x) (h0 : 0 ≤ x) :
    (0 ≤ x.tdiv Q ∧ x.tdiv Q ≤ 2 ^ w / Q) ∧
      0 ≤ x - x.tdiv Q * Q ∧ x - x.tdiv Q * Q ≤ Q - 1 := by
  rw [Int.tdiv_eq_ediv_of_nonneg h0]
  have hrem : x - x / Q * Q = x % Q := by rw [Int.emod_def, mul_comm]
  rw [hrem]
  exact ⟨⟨Int.ediv_nonneg h0 hQ.le, Int.ediv_le_ediv hQ hx.2.le⟩,
    Int.emod_nonneg x hQ.ne', Int.le_sub_one_of_lt (Int.emod_lt_of_pos x hQ)⟩

/-- Truncating division of a negative `x`: quotient and remainder are those of `-x`, negated. -/
theorem tdiv_neg (hQ : 0 < Q) (hx : Fits w x) (h0 : x < 0) :
    (-(2 ^ w / Q) ≤ x.tdiv Q ∧ x.tdiv Q ≤ 0) ∧
      -(Q - 1) ≤ x - x.tdiv Q * Q ∧ x - x.tdiv Q * Q ≤ 0 := by
  have hdiv : x.tdiv Q = -(-x / Q) := by
    rw [← Int.tdiv_eq_ediv_of_nonneg (by omega : 0 ≤ -x), Int.neg_tdiv, neg_neg]
  have hrem : x - x.tdiv Q * Q = -(-x % Q) := by
    rw [hdiv, Int.emod_def]
    ring
  have hle : -x / Q ≤ 2 ^ w / Q := Int.ediv_le_ediv hQ (by linarith [hx.1])
  have hge : 0 ≤ -x / Q := Int.ediv_nonneg (by omega) hQ.le
  have hlt := Int.emod_lt_of_pos (-x) hQ
  have hnn := Int.emod_nonneg (-x) hQ.ne'
  rw [hrem, hdiv]
  exact ⟨⟨by omega, by omega⟩, by omega, by omega⟩

/-- The two products have the sign of `x` and stay below the modulus. -/
theorem products (h : Schrage w A Q R M) (hx : Fits w x) :
    (0 ≤ A * (x - x.tdiv Q * Q) ∧ A * (x - x.tdiv Q * Q) < M ∧
        0 ≤ x.tdiv Q * R ∧ x.tdiv Q * R < M) ∨
      (A * (x - x.tdiv Q * Q) ≤ 0 ∧ -M < A * (x - x.tdiv Q * Q) ∧
        x.tdiv Q * R ≤ 0 ∧ -M < x.tdiv Q * R) := by
  by_cases h0 : 0 ≤ x
  · obtain ⟨⟨hk0, hk⟩, hr0, hr⟩ := tdiv_nonneg h.Q_pos hx h0
    have h1 := mul_le_mul_of_nonneg_left hr h.A_nonneg
    have h2 := mul_le_mul_of_nonneg_right hk h.R_nonneg
    exact Or.inl ⟨mul_nonneg h.A_nonneg hr0, lt_of_le_of_lt h1 h.low,
      mul_nonneg hk0 h.R_nonneg, lt_of_le_of_lt h2 h.high⟩
  · obtain ⟨⟨hk, hk0⟩, hr, hr0⟩ := tdiv_neg h.Q_pos hx (not_le.1 h0)
    have h1 := mul_le_mul_of_nonneg_left hr h.A_nonneg
    have h2 := mul_le_mul_of_nonneg_right hk h.R_nonneg
    have hlow := h.low
    have hhigh := h.high
    rw [mul_neg] at h1
    rw [neg_mul] at h2
    exact Or.inr ⟨mul_nonpos_of_nonneg_of_nonpos h.A_nonneg hr0, by linarith,
      mul_nonpos_of_nonpos_of_nonneg hk0 h.R_nonneg, by linarith⟩

/-! ## No intermediate overflows, and the result is the remainder -/

/-- The quotient, the multiple of `Q` and the remainder lie between `0` and `x`. -/
theorem between (hQ : 0 < Q) (hx : Fits w x) :
    Fits w (x.tdiv Q) ∧ Fits w (x.tdiv Q * Q) ∧ Fits w (x - x.tdiv Q * Q) := by
  have hpow : (0 : ℤ) < 2 ^ w := by positivity
  obtain ⟨hlo, hhi⟩ := hx
  by_cases h0 : 0 ≤ x
  · obtain ⟨⟨hk0, -⟩, hr0, -⟩ := tdiv_nonneg hQ ⟨hlo, hhi⟩ h0
    have hkQ : x.tdiv Q ≤ x.tdiv Q * Q := le_mul_of_one_le_right hk0 hQ
    exact ⟨⟨by omega, by omega⟩, ⟨by omega, by omega⟩, by omega, by omega⟩
  · obtain ⟨⟨-, hk0⟩, -, hr0⟩ := tdiv_neg hQ ⟨hlo, hhi⟩ (not_le.1 h0)
    have hkQ : x.tdiv Q * Q ≤ x.tdiv Q := mul_le_of_one_le_right hk0 hQ
    exact ⟨⟨by omega, by omega⟩, ⟨by omega, by omega⟩, by omega, by omega⟩

/-- **No product and no difference overflows.** -/
theorem fits (h : Schrage w A Q R M) (hx : Fits w x) :
    Fits w (A * (x - x.tdiv Q * Q)) ∧ Fits w (x.tdiv Q * R) ∧
      Fits w (A * (x - x.tdiv Q * Q) - x.tdiv Q * R) := by
  have hM := h.M_le
  rcases h.products hx with ⟨hl, hl', hr, hr'⟩ | ⟨hl, hl', hr, hr'⟩ <;>
    exact ⟨⟨by omega, by omega⟩, ⟨by omega, by omega⟩, by omega, by omega⟩

/-- The difference is `A * x` up to a multiple of the modulus, and at most one modulus away from
its range. -/
theorem difference (h : Schrage w A Q R M) (hx : Fits w x) :
    A * (x - x.tdiv Q * Q) - x.tdiv Q * R = A * x - x.tdiv Q * M ∧
      -M < A * (x - x.tdiv Q * Q) - x.tdiv Q * R ∧
      A * (x - x.tdiv Q * Q) - x.tdiv Q * R < M := by
  refine ⟨by rw [h.split]; ring, ?_⟩
  rcases h.products hx with ⟨hl, hl', hr, hr'⟩ | ⟨hl, hl', hr, hr'⟩ <;> constructor <;> omega

/-- **The corrected difference is the Euclidean remainder of `A * x`.** -/
theorem corrected_eq (h : Schrage w A Q R M) (hx : Fits w x) :
    (if A * (x - x.tdiv Q * Q) - x.tdiv Q * R < 0 then
        A * (x - x.tdiv Q * Q) - x.tdiv Q * R + M
      else A * (x - x.tdiv Q * Q) - x.tdiv Q * R) = A * x % M := by
  obtain ⟨hdiff, hlo, hhi⟩ := h.difference hx
  rw [hdiff] at hlo hhi ⊢
  split_ifs with hneg
  · have hlt : A * x - x.tdiv Q * M + M < M := by omega
    rw [← Int.emod_eq_of_lt (by omega : 0 ≤ A * x - x.tdiv Q * M + M) hlt,
      show A * x - x.tdiv Q * M + M = A * x + (1 - x.tdiv Q) * M by ring,
      Int.add_mul_emod_self_right]
  · rw [← Int.emod_eq_of_lt (not_lt.1 hneg) hhi, Int.sub_mul_emod_self_right]

end Schrage

end DBUtl
