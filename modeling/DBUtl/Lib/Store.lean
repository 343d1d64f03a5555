import Mathlib.Data.Nat.Notation
import Mathlib.Logic.Function.Basic

/-!
# Writing a list into an array

An array is a function from indices. `storeFrom i xs a` is `a` with the elements of `xs` written
one after the other, from index `i` on; nothing else changes.
-/

namespace DBUtl

variable {α : Type*}

/-- Write `xs` into `a` from index `i` on. -/
def storeFrom (i : ℕ) : List α → (ℕ → α) → ℕ → α
  | [], a => a
  | x :: xs, a => storeFrom (i + 1) xs (Function.update a i x)

/-- Nothing is written outside the indices from `i` to `i + xs.length`. -/
theorem storeFrom_of_notMem {i j : ℕ} {xs : List α} (h : j < i ∨ i + xs.length ≤ j) (a : ℕ → α) :
    storeFrom i xs a j = a j := by
  induction xs generalizing i a with
  | nil => rfl
  | cons x xs ih =>
    rw [List.length_cons] at h
    rw [storeFrom, ih (by omega), Function.update_of_ne (by omega)]

theorem storeFrom_of_lt (i : ℕ) {k : ℕ} {xs : List α} (h : k < xs.length) (a : ℕ → α) :
    storeFrom i xs a (i + k) = xs[k] := by
  induction xs generalizing i k a with
  | nil => simp at h
  | cons x xs ih =>
    cases k with
    | zero =>
      rw [Nat.add_zero, storeFrom, storeFrom_of_notMem (Or.inl (Nat.lt_add_one i)),
        Function.update_self]
      rfl
    | succ k =>
      rw [storeFrom, show i + (k + 1) = i + 1 + k by omega, ih (i + 1) (Nat.lt_of_succ_lt_succ h)]
      rfl

theorem storeFrom_append (i : ℕ) (xs ys : List α) (a : ℕ → α) :
    storeFrom i (xs ++ ys) a = storeFrom (i + xs.length) ys (storeFrom i xs a) := by
  induction xs generalizing i a with
  | nil => rfl
  | cons x xs ih =>
    rw [List.cons_append, storeFrom, storeFrom, ih, List.length_cons]
    congr 1
    omega

end DBUtl
