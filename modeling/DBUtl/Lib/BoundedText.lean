import DBUtl.Lib.Store

/-!
# A text in a bounded buffer

A text is put together in a buffer of fixed size, piece by piece. A piece is written behind the
text so far, as much of it as there is room for, and a terminator behind it. The position then
moves by the length of the whole piece, so that it can overshoot the buffer; from there on nothing
is written any more.

* `Printed` — the buffer holds what there is room for, and nothing was written outside.
* `Printed.print`, `Printed.skip` — one more piece, with or without room.
-/

namespace DBUtl

variable {α : Type*}

/-- Write a piece into the `room` places from `i` on. -/
def printAt (nul : α) (i room : ℕ) (piece : List α) (a : ℕ → α) : ℕ → α :=
  if room = 0 then a else storeFrom i (piece.take (room - 1) ++ [nul]) a

/-- The first `size` places of `a` hold the text `w` up to the last place, and a terminator behind
it; the rest is as in `a₀`. The position `n` is the length of the text, or behind the buffer. -/
structure Printed (nul : α) (size : ℕ) (a₀ a : ℕ → α) (w : List α) (n : ℕ) : Prop where
  count : n < size → n = w.length
  full : size ≤ n → size ≤ w.length
  get : ∀ (k : ℕ) (h : k < w.length), k + 1 < size → a k = w[k]
  terminated : n = 0 ∨ a (min (size - 1) w.length) = nul
  frame : ∀ j, size ≤ j → a j = a₀ j

namespace Printed

variable {nul : α} {size n : ℕ} {a₀ a : ℕ → α} {w : List α}

theorem start (hsize : 0 < size) (a : ℕ → α) : Printed nul size a a [] 0 where
  count _ := rfl
  full h := absurd h (by omega)
  get k h := absurd h (by simp)
  terminated := Or.inl rfl
  frame _ _ := rfl

/-- A piece for which there is room, at least in part. -/
theorem print (h : Printed nul size a₀ a w n) (hn : n < size) (piece : List α) :
    Printed nul size a₀ (printAt nul n (size - n) piece a) (w ++ piece) (n + piece.length) := by
  have hw := h.count hn
  have hlen :
      (piece.take (size - n - 1) ++ [nul]).length = min (size - n - 1) piece.length + 1 := by simp
  have hprint : printAt nul n (size - n) piece a =
      storeFrom n (piece.take (size - n - 1) ++ [nul]) a := if_neg (by omega)
  rw [hprint]
  refine ⟨fun _ => by simp [hw], fun hfull => by simpa [hw] using hfull, ?_, Or.inr ?_, ?_⟩
  · intro k hk hroom
    by_cases hold : k < n
    · rw [storeFrom_of_notMem (Or.inl hold), h.get k (by omega) hroom,
        List.getElem_append_left (by omega)]
    · obtain ⟨i, rfl⟩ := Nat.exists_eq_add_of_le (Nat.not_lt.mp hold)
      have hi : i < piece.length := by simpa [hw] using hk
      rw [storeFrom_of_lt n (by omega), List.getElem_append_left (by simp; omega),
        List.getElem_take, List.getElem_append_right (by omega)]
      simp [hw]
  · -- the terminator stands behind what was written of the piece
    have hpos : min (size - 1) (w ++ piece).length = n + min (size - n - 1) piece.length := by
      rw [List.length_append, ← hw]
      omega
    rw [hpos, storeFrom_of_lt n (by omega), List.getElem_append_right (by simp)]
    simp
  · intro j hj
    rw [storeFrom_of_notMem (Or.inr (by omega)), h.frame j hj]

/-- A piece that comes when the buffer is full. -/
theorem skip (h : Printed nul size a₀ a w n) (hsize : 0 < size) (hn : size ≤ n) (piece : List α) :
    Printed nul size a₀ a (w ++ piece) n := by
  have hw := h.full hn
  refine ⟨fun hlt => absurd hn (Nat.not_le.mpr hlt), fun _ => ?_, ?_, Or.inr ?_, h.frame⟩
  · rw [List.length_append]
    omega
  · intro k hk hroom
    rw [h.get k (by omega) hroom, List.getElem_append_left (by omega)]
  · have hnul := h.terminated.resolve_left (by omega)
    rw [Nat.min_eq_left (by omega)] at hnul
    rwa [List.length_append, Nat.min_eq_left (by omega)]

end Printed

end DBUtl
