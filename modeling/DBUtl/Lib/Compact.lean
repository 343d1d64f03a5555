import DBUtl.Lib.Store
import Mathlib.Data.List.Range

/-!
# Compacting an array in place

One index reads, another writes the elements that are kept. The writer is never ahead of the reader,
so what is still to be read has not been written to: the result is the list of the kept elements, in
order, at the start of the array, and behind it the array as it was (`compactFrom_eq`).
-/

namespace DBUtl

variable {α : Type*} {p : α → Bool}

/-- The loop: `k` elements are left, from index `i` on, and index `j` is written next. -/
def compactFrom (p : α → Bool) : (k i j : ℕ) → (ℕ → α) → ℕ × (ℕ → α)
  | 0, _, j, a => (j, a)
  | k + 1, i, j, a =>
    if p (a i) then compactFrom p k (i + 1) (j + 1) (Function.update a j (a i))
    else compactFrom p k (i + 1) j a

/-- The kept ones of the `k` elements from index `i` on. -/
def keptFrom (p : α → Bool) (k i : ℕ) (a : ℕ → α) : List α := ((List.range' i k).map a).filter p

theorem keptFrom_succ (k i : ℕ) (a : ℕ → α) :
    keptFrom p (k + 1) i a = if p (a i) then a i :: keptFrom p k (i + 1) a
      else keptFrom p k (i + 1) a := by
  rw [keptFrom, List.range'_succ, List.map_cons, List.filter_cons]
  rfl

/-- A write before index `i` does not change what is kept from there on. -/
theorem keptFrom_update {j i : ℕ} (h : j < i) (k : ℕ) (x : α) (a : ℕ → α) :
    keptFrom p k i (Function.update a j x) = keptFrom p k i a := by
  have hmap : (List.range' i k).map (Function.update a j x) = (List.range' i k).map a := by
    refine List.map_congr_left fun m hm => Function.update_of_ne ?_ _ _
    have hle := (List.mem_range'_1.mp hm).1
    omega
  rw [keptFrom, hmap, keptFrom]

theorem length_keptFrom_le (k i : ℕ) (a : ℕ → α) : (keptFrom p k i a).length ≤ k := by
  refine (List.length_filter_le _ _).trans ?_
  rw [List.length_map, List.length_range']

/-- **Compaction.** By induction on what is left; the writer is not ahead of the reader. -/
theorem compactFrom_eq {k i j : ℕ} (h : j ≤ i) (a : ℕ → α) :
    compactFrom p k i j a =
      (j + (keptFrom p k i a).length, storeFrom j (keptFrom p k i a) a) := by
  induction k generalizing i j a with
  | zero => rfl
  | succ k ih =>
    rw [compactFrom, keptFrom_succ]
    by_cases hp : p (a i) = true
    · rw [if_pos hp, if_pos hp, ih (Nat.add_le_add_right h 1),
        keptFrom_update (Nat.lt_succ_of_le h), List.length_cons, storeFrom,
        Nat.add_right_comm, Nat.add_assoc]
    · rw [if_neg hp, if_neg hp, ih (Nat.le_succ_of_le h)]

/-- A list written into an array, read back. -/
theorem map_storeFrom (xs : List α) (a : ℕ → α) :
    (List.range' 0 xs.length).map (storeFrom 0 xs a) = xs := by
  refine List.ext_getElem (by simp) fun i hi hi' => ?_
  have hread := storeFrom_of_lt 0 hi' a
  simpa using hread

theorem storeFrom_idem (xs : List α) (a : ℕ → α) :
    storeFrom 0 xs (storeFrom 0 xs a) = storeFrom 0 xs a := by
  funext i
  by_cases hi : i < xs.length
  · have hread (b : ℕ → α) : storeFrom 0 xs b i = xs[i] := by
      simpa using storeFrom_of_lt 0 hi b
    rw [hread, hread]
  · rw [storeFrom_of_notMem (.inr (by omega))]

/-- A compacted array is compact. -/
theorem compactFrom_idem (k : ℕ) (a : ℕ → α) :
    compactFrom p (compactFrom p k 0 0 a).1 0 0 (compactFrom p k 0 0 a).2 =
      compactFrom p k 0 0 a := by
  have hkept : keptFrom p (keptFrom p k 0 a).length 0 (storeFrom 0 (keptFrom p k 0 a) a) =
      keptFrom p k 0 a := by
    rw [keptFrom, map_storeFrom, keptFrom, List.filter_filter]
    simp
  rw [compactFrom_eq le_rfl a, Nat.zero_add, compactFrom_eq le_rfl, hkept, storeFrom_idem,
    Nat.zero_add]

end DBUtl
