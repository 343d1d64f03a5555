import Mathlib.Algebra.Order.Ring.Int
import Mathlib.Data.Int.Cast.Basic
import Mathlib.Tactic.Positivity

/-!
# Checked signed arithmetic

Signed overflow is undefined in C. A computation on signed integers with `w` value bits is
modelled over the unbounded integers, with every intermediate result passed through
`checked w`, which fails on a result the type does not hold. A computation that succeeds has
met no overflow on the way.
-/

namespace DBUtl

/-- `x` is a value of the signed type with `w` value bits and a sign bit. -/
def Fits (w : ℕ) (x : ℤ) : Prop := -2 ^ w ≤ x ∧ x < 2 ^ w

instance (w : ℕ) (x : ℤ) : Decidable (Fits w x) := inferInstanceAs (Decidable (_ ∧ _))

/-- An intermediate result `x`, if the type holds it. -/
def checked (w : ℕ) (x : ℤ) : Option ℤ := if Fits w x then some x else none

theorem checked_of_fits {w : ℕ} {x : ℤ} (h : Fits w x) : checked w x = some x := if_pos h

theorem checked_of_not_fits {w : ℕ} {x : ℤ} (h : ¬ Fits w x) : checked w x = none := if_neg h

theorem checked_eq_some {w : ℕ} {x y : ℤ} (h : checked w x = some y) : y = x := by
  unfold checked at h
  split_ifs at h
  exact (Option.some.inj h).symm

/-- A number without a sign fits when it is below the sign bit. -/
theorem fits_natCast_iff {w k : ℕ} : Fits w (k : ℤ) ↔ k < 2 ^ w := by
  have hlow : -2 ^ w ≤ (k : ℤ) := (neg_nonpos.mpr (by positivity)).trans k.cast_nonneg
  rw [Fits, and_iff_right hlow]
  exact_mod_cast Iff.rfl

theorem checked_natCast {w k : ℕ} (h : k < 2 ^ w) : checked w (k : ℤ) = some (k : ℤ) :=
  checked_of_fits (fits_natCast_iff.mpr h)

theorem checked_natCast_eq_none {w k : ℕ} (h : ¬ k < 2 ^ w) : checked w (k : ℤ) = none :=
  checked_of_not_fits (mt fits_natCast_iff.mp h)

end DBUtl
