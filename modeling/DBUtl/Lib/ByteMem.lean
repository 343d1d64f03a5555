import Mathlib.Data.Nat.Notation

/-!
# A byte memory with 64-bit addresses

A memory gives every address a byte. Words are stored with the low byte first, at eight
consecutive addresses; addresses wrap around.
-/

namespace DBUtl

/-- A memory. -/
abbrev ByteMem := BitVec 64 → BitVec 8

namespace ByteMem

/-- Byte `i` of a word. -/
def byteOf (v : BitVec 64) (i : ℕ) : BitVec 8 := v.extractLsb' (8 * i) 8

/-- The word at address `a`. -/
def load64 (m : ByteMem) (a : BitVec 64) : BitVec 64 :=
  m (a + 7) ++ m (a + 6) ++ m (a + 5) ++ m (a + 4) ++ m (a + 3) ++ m (a + 2) ++ m (a + 1) ++ m a

/-- Store a word at address `a`: address `x` is the one of byte `x - a`. -/
def store64 (m : ByteMem) (a v : BitVec 64) : ByteMem := fun x =>
  if (x - a).toNat < 8 then byteOf v (x - a).toNat else m x

theorem store64_add (m : ByteMem) (a v : BitVec 64) {i : BitVec 64} (hi : i.toNat < 8) :
    m.store64 a v (a + i) = byteOf v i.toNat := by
  rw [store64, BitVec.add_comm, BitVec.add_sub_cancel, if_pos hi]

/-- The bytes of a word, put together. -/
theorem append_byteOf (v : BitVec 64) :
    byteOf v 7 ++ byteOf v 6 ++ byteOf v 5 ++ byteOf v 4 ++ byteOf v 3 ++ byteOf v 2 ++
      byteOf v 1 ++ byteOf v 0 = v := by
  simp only [byteOf]
  rw [BitVec.extractLsb'_append_extractLsb'_eq_extractLsb' (by decide),
    BitVec.extractLsb'_append_extractLsb'_eq_extractLsb' (by decide),
    BitVec.extractLsb'_append_extractLsb'_eq_extractLsb' (by decide),
    BitVec.extractLsb'_append_extractLsb'_eq_extractLsb' (by decide),
    BitVec.extractLsb'_append_extractLsb'_eq_extractLsb' (by decide),
    BitVec.extractLsb'_append_extractLsb'_eq_extractLsb' (by decide),
    BitVec.extractLsb'_append_extractLsb'_eq_extractLsb' (by decide)]
  exact BitVec.extractLsb'_eq_self

/-- **A word that was stored is read back.** -/
theorem load64_store64 (m : ByteMem) (a v : BitVec 64) : (m.store64 a v).load64 a = v := by
  have h0 : m.store64 a v a = byteOf v 0 := by
    simpa using store64_add m a v (i := 0) (by decide)
  rw [load64, h0, store64_add m a v (by decide), store64_add m a v (by decide),
    store64_add m a v (by decide), store64_add m a v (by decide), store64_add m a v (by decide),
    store64_add m a v (by decide), store64_add m a v (by decide)]
  exact append_byteOf v

end ByteMem

end DBUtl
