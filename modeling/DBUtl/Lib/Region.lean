import DBUtl.Lib.ByteMem
import Mathlib.Algebra.Order.Ring.Nat
import Mathlib.Data.Set.Function
import Mathlib.Data.Set.Lattice
import Mathlib.Order.CompletePartialOrder

/-!
# Regions of a byte memory

The bytes of a block are the set `range a n` of their addresses. What an operation leaves alone is
said by `Set.EqOn`: two memories agree on a set of addresses. A store and a fill change the range
they are given and agree with the old memory on every set disjoint from it.
-/

namespace DBUtl

namespace ByteMem

/-- The addresses of the `n` bytes from `a` on. -/
def range (a n : BitVec 64) : Set (BitVec 64) :=
  {x | a.toNat ≤ x.toNat ∧ x.toNat < a.toNat + n.toNat}

/-- Write the byte `v` to the `n` addresses from `a` on: address `x` is the one of byte `x - a`. -/
def fill (m : ByteMem) (a : BitVec 64) (v : BitVec 8) (n : BitVec 64) : ByteMem := fun x =>
  if (x - a).toNat < n.toNat then v else m x

theorem mem_range {a n x : BitVec 64} :
    x ∈ range a n ↔ a.toNat ≤ x.toNat ∧ x.toNat < a.toNat + n.toNat := Iff.rfl

/-- In a range that does not wrap around, the offset from its start tells the members. -/
theorem toNat_sub_lt_iff {a n : BitVec 64} (h : a.toNat + n.toNat ≤ 2 ^ 64) (x : BitVec 64) :
    (x - a).toNat < n.toNat ↔ x ∈ range a n := by
  have hx := x.isLt
  have ha := a.isLt
  rw [BitVec.toNat_sub, mem_range]
  by_cases hle : a.toNat ≤ x.toNat
  · rw [show 2 ^ 64 - a.toNat + x.toNat = x.toNat - a.toNat + 2 ^ 64 by omega, Nat.add_mod_right,
      Nat.mod_eq_of_lt (by omega)]
    omega
  · rw [Nat.mod_eq_of_lt (by omega)]
    omega

theorem range_subset {a n b k : BitVec 64} (hlo : b.toNat ≤ a.toNat)
    (hhi : a.toNat + n.toNat ≤ b.toNat + k.toNat) : range a n ⊆ range b k := by
  intro x hx
  rw [mem_range] at hx ⊢
  omega

theorem disjoint_range {a n b k : BitVec 64} (h : a.toNat + n.toNat ≤ b.toNat) :
    Disjoint (range a n) (range b k) := by
  rw [Set.disjoint_left]
  intro x hx hx'
  rw [mem_range] at hx hx'
  omega

theorem left_mem_range {a n : BitVec 64} (h : 0 < n.toNat) : a ∈ range a n :=
  ⟨le_rfl, by omega⟩

/-! ## Frames -/

theorem fill_of_mem {m : ByteMem} {a n x : BitVec 64} {v : BitVec 8}
    (h : a.toNat + n.toNat ≤ 2 ^ 64) (hx : x ∈ range a n) : m.fill a v n x = v :=
  if_pos ((toNat_sub_lt_iff h x).2 hx)

theorem fill_eqOn (m : ByteMem) {a n : BitVec 64} (v : BitVec 8) {s : Set (BitVec 64)}
    (h : a.toNat + n.toNat ≤ 2 ^ 64) (hs : Disjoint s (range a n)) :
    Set.EqOn (m.fill a v n) m s := by
  intro x hx
  exact if_neg fun hlt => Set.disjoint_left.1 hs hx ((toNat_sub_lt_iff h x).1 hlt)

theorem store64_eqOn (m : ByteMem) {a : BitVec 64} (v : BitVec 64) {s : Set (BitVec 64)}
    (h : a.toNat + 8 ≤ 2 ^ 64) (hs : Disjoint s (range a 8)) :
    Set.EqOn (m.store64 a v) m s := by
  intro x hx
  exact if_neg fun hlt => Set.disjoint_left.1 hs hx ((toNat_sub_lt_iff h x).1 hlt)

theorem update_eqOn (m : ByteMem) {a : BitVec 64} (v : BitVec 8) {s : Set (BitVec 64)}
    (ha : a ∉ s) : Set.EqOn (Function.update m a v) m s := by
  intro x hx
  have hne : x ≠ a := fun h => ha (h ▸ hx : a ∈ s)
  exact Function.update_of_ne hne v m

/-- A word is read from its eight bytes. -/
theorem load64_congr {m m' : ByteMem} {a : BitVec 64} (h : a.toNat + 8 ≤ 2 ^ 64)
    (heq : Set.EqOn m m' (range a 8)) : m.load64 a = m'.load64 a := by
  have hbyte (i : BitVec 64) (hi : i.toNat < 8) : m (a + i) = m' (a + i) := by
    refine heq ((toNat_sub_lt_iff h _).1 ?_)
    rwa [BitVec.add_comm, BitVec.add_sub_cancel]
  have h0 : m a = m' a := by simpa using hbyte 0 (by decide)
  rw [load64, load64, h0, hbyte 1 (by decide), hbyte 2 (by decide), hbyte 3 (by decide),
    hbyte 4 (by decide), hbyte 5 (by decide), hbyte 6 (by decide), hbyte 7 (by decide)]

end ByteMem

end DBUtl
