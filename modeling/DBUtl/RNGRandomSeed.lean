import DBUtl.RNGFields

/-!
# Seeds from the clock

`setSeed(0)` hashes the clock with the old seed, and makes a seed of the hash that is not `0`: the
hash is shifted left by 8 bits, and if nothing is left the initial seed is taken. But the seed field
has 24 bits, and of the shifted hash it keeps bits 8 to 23, which are bits 0 to 15 of the hash. Bits
16 to 23 pass the test and are lost.
-/

namespace DBUtl.RGenI

variable (now : U32) (g : RGenI)

theorem setSeed_zero : g.setSeed now 0 = g.setSeed now (randomSeed now g) := by
  rw [setSeed, if_neg (not_not.2 rfl)]

/-- What the seed field keeps of the new seed. -/
theorem toNat_randomSeed_mod :
    (randomSeed now g).toNat % 2 ^ 24 =
      if (hash64to32 g.getSeed now).toNat % 2 ^ 24 = 0 then 0x5a5a5a
      else (hash64to32 g.getSeed now).toNat % 2 ^ 16 * 2 ^ 8 := by
  have hshift : (hash64to32 g.getSeed now <<< 8).toNat =
      (hash64to32 g.getSeed now).toNat % 2 ^ 24 * 2 ^ 8 := by
    rw [BitVec.toNat_shiftLeft, Nat.shiftLeft_eq]
    omega
  have hzero : hash64to32 g.getSeed now <<< 8 = 0 ↔
      (hash64to32 g.getSeed now).toNat % 2 ^ 24 = 0 := by
    rw [← BitVec.toNat_inj, hshift]
    simp
  have hseed : randomSeed now g =
      if hash64to32 g.getSeed now <<< 8 = 0 then INIT_SEED
      else hash64to32 g.getSeed now <<< 8 := rfl
  rw [hseed]
  simp only [hzero]
  split_ifs
  · rfl
  · rw [hshift]
    omega

theorem getSeed_setSeed_zero :
    (g.setSeed now 0).getSeed = 0 ↔ (randomSeed now g).toNat % 2 ^ 24 = 0 := by
  rw [setSeed_zero, ← BitVec.toNat_inj, getSeed_setSeed now (randomSeed_ne_zero now g)]
  rfl

/-- **A seed from the clock** leaves the position alone. It names the null sequence exactly when
the hash of the clock and the old seed has a bit in 16 to 23 and none below. -/
theorem setSeed_zero_iff :
    ((g.setSeed now 0).getPos = g.getPos ∧ (g.setSeed now 0).getSeed ≠ 0) ↔
      (hash64to32 g.getSeed now).toNat % 2 ^ 16 ≠ 0 ∨
        (hash64to32 g.getSeed now).toNat % 2 ^ 24 = 0 := by
  have hne := randomSeed_ne_zero now g
  have hpos : (g.setSeed now 0).getPos = g.getPos := by
    rw [setSeed_zero, getPos_setSeed now hne]
  rw [and_iff_right hpos, ne_eq, getSeed_setSeed_zero, toNat_randomSeed_mod]
  split_ifs
  · simp_all
  · omega

/-- At the time `1600003063`, a new generator gets the null sequence. -/
theorem setSeed_zero_null :
    ¬ ∀ (g : RGenI) (now : U32),
      (g.setSeed now 0).getPos = g.getPos ∧ (g.setSeed now 0).getSeed ≠ 0 := by
  intro h
  have hseed := (h ⟨INIT_DATA⟩ 1600003063).2
  exact hseed ((getSeed_setSeed_zero 1600003063 ⟨INIT_DATA⟩).2 (by decide))

end DBUtl.RGenI
