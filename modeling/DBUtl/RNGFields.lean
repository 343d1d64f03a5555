import DBUtl.RNGWord

/-!
# Seed and position as fields

The identifier and the position are two fields of one word. `setSeed` and `setPos` each write one
and leave the other alone; what they write is cut down to the width of the field, 24 and 40 bits.
A draw is an increment of the whole word, so the position carries into the identifier: at the end
of a sequence the draws go on with the next one.
-/

namespace DBUtl.RGenI

open RGenI (next)

/-! ## Reading what was set -/

theorem ext_fields {g g' : RGenI} (hseed : g.getSeed.toNat = g'.getSeed.toNat)
    (hpos : g.getPos.toNat = g'.getPos.toNat) : g = g' := by
  rw [toNat_getSeed, toNat_getSeed] at hseed
  rw [toNat_getPos, toNat_getPos] at hpos
  apply ext_toNat
  omega

section Set

variable (now : U32) {s : U32} (hs : s ≠ 0) (p : U64) (g : RGenI)
include hs

theorem getSeed_setSeed : (g.setSeed now s).getSeed.toNat = s.toNat % 2 ^ 24 := by
  rw [toNat_getSeed, toNat_setSeed now hs]
  omega

theorem getPos_setSeed : (g.setSeed now s).getPos = g.getPos := by
  apply BitVec.eq_of_toNat_eq
  rw [toNat_getPos, toNat_getPos, toNat_setSeed now hs]
  omega

omit hs in
theorem getPos_setPos : (g.setPos p).getPos.toNat = p.toNat % 2 ^ 40 := by
  rw [toNat_getPos, toNat_setPos]
  omega

theorem setPos_setSeed : (g.setSeed now s).setPos p = (g.setPos p).setSeed now s := by
  apply ext_fields
  · rw [getSeed_setPos, getSeed_setSeed now hs, getSeed_setSeed now hs]
  · rw [getPos_setPos, getPos_setSeed now hs, getPos_setPos]

end Set

/-- **Seed and position are independent fields**, of 24 and of 40 bits. -/
theorem seed_pos_independent (g : RGenI) (now s : U32) (hs : s ≠ 0) (p : U64) :
    (g.setSeed now s).getSeed.toNat = s.toNat % 2 ^ 24 ∧
    (g.setSeed now s).getPos = g.getPos ∧
    (g.setPos p).getPos.toNat = p.toNat % 2 ^ 40 ∧
    (g.setPos p).getSeed = g.getSeed ∧
    (g.setSeed now s).setPos p = (g.setPos p).setSeed now s ∧
    ∀ now' s' : U32, s' ≠ 0 →
      (g.setSeed now s = g.setSeed now' s' ↔ s.toNat % 2 ^ 24 = s'.toNat % 2 ^ 24) := by
  refine ⟨getSeed_setSeed now hs g, getPos_setSeed now hs g, getPos_setPos p g,
    getSeed_setPos p g, setPos_setSeed now hs p g, fun now' s' hs' => ?_⟩
  rw [← getSeed_setSeed now hs g, ← getSeed_setSeed now' hs' g]
  constructor
  · intro h
    rw [h]
  · intro h
    exact ext_fields h (by rw [getPos_setSeed now hs, getPos_setSeed now' hs'])

/-- A seed with a bit above the field. -/
theorem seed_pos_independent_high : ((⟨5⟩ : RGenI).setSeed 0 0x1000007).getSeed.toNat = 7 :=
  (seed_pos_independent ⟨5⟩ 0 0x1000007 (by decide) 9).1

/-- The seed `2²⁴` is read back as `0`. -/
theorem getSeed_setSeed_ne :
    ¬ ∀ (g : RGenI) (now s : U32), s ≠ 0 → ∀ p : U64,
      (g.setSeed now s).getSeed = s ∧
      (g.setSeed now s).getPos = g.getPos ∧
      (g.setPos p).getPos.toNat = p.toNat % 2 ^ 40 ∧
      (g.setPos p).getSeed = g.getSeed ∧
      (g.setSeed now s).setPos p = (g.setPos p).setSeed now s ∧
      ∀ now' s' : U32, s' ≠ 0 → s ≠ s' → g.setSeed now s ≠ g.setSeed now' s' := by
  intro h
  have hread := congrArg BitVec.toNat (h ⟨0⟩ 0 0x1000000 (by decide) 0).1
  rw [getSeed_setSeed 0 (by decide)] at hread
  exact absurd hread (by decide)

/-! ## Drawing -/

theorem getSeed_next_iterate (n : ℕ) (g : RGenI) :
    (next^[n] g).getSeed.toNat =
      (g.getSeed.toNat + (g.getPos.toNat + n) / 2 ^ 40) % 2 ^ 24 := by
  rw [toNat_getSeed, toNat_getSeed, toNat_getPos, toNat_next_iterate]
  omega

theorem getPos_next_iterate (n : ℕ) (g : RGenI) :
    (next^[n] g).getPos.toNat = (g.getPos.toNat + n) % 2 ^ 40 := by
  rw [toNat_getPos, toNat_getPos, toNat_next_iterate]
  omega

/-- A sequence is left only at the end of its positions. -/
theorem getSeed_next_iterate_of_lt {n : ℕ} {g : RGenI} (h : g.getPos.toNat + n < 2 ^ 40) :
    (next^[n] g).getSeed = g.getSeed := by
  have hlt : g.getSeed.toNat < 2 ^ 24 := by
    rw [toNat_getSeed]
    have := g.data.isLt
    omega
  apply BitVec.eq_of_toNat_eq
  rw [getSeed_next_iterate, Nat.div_eq_of_lt h, Nat.add_zero, Nat.mod_eq_of_lt hlt]

variable {R : Type*} [Double R]

/-- **Drawing walks through the positions, and on into the next sequence.** Draw `i` hashes the
identifier and the position before it. Two generators in different sequences never hash the same
pair while each is in its own. -/
theorem rand_fields (st : Statics R) (g : RGenI) (n : ℕ) :
    ((fun h : RGenI => (h.rand st).2)^[n] g).getSeed.toNat =
      (g.getSeed.toNat + (g.getPos.toNat + n) / 2 ^ 40) % 2 ^ 24 ∧
    ((fun h : RGenI => (h.rand st).2)^[n] g).getPos.toNat = (g.getPos.toNat + n) % 2 ^ 40 ∧
    ∀ (g' : RGenI) (n' : ℕ), g.getSeed ≠ g'.getSeed →
      g.getPos.toNat + n < 2 ^ 40 → g'.getPos.toNat + n' < 2 ^ 40 →
      (((fun h : RGenI => (h.rand st).2)^[n] g).getSeed,
          ((fun h : RGenI => (h.rand st).2)^[n] g).getPos) ≠
        (((fun h : RGenI => (h.rand st).2)^[n'] g').getSeed,
          ((fun h : RGenI => (h.rand st).2)^[n'] g').getPos) := by
  have hnext : (fun h : RGenI => (h.rand st).2) = next := rfl
  rw [hnext]
  refine ⟨getSeed_next_iterate n g, getPos_next_iterate n g, fun g' n' hne hn hn' heq => hne ?_⟩
  have hseed := congrArg Prod.fst heq
  rwa [getSeed_next_iterate_of_lt hn, getSeed_next_iterate_of_lt hn'] at hseed

/-- At the last position of sequence `1`, a draw goes on to sequence `2`. -/
theorem getSeed_rand_ne :
    ¬ ∀ (st : Statics ℚ) (g : RGenI) (n : ℕ),
      ((fun h : RGenI => (h.rand st).2)^[n] g).getSeed = g.getSeed ∧
      ((fun h : RGenI => (h.rand st).2)^[n] g).getPos.toNat = (g.getPos.toNat + n) % 2 ^ 40 := by
  intro h
  have h1 := (h ⟨0, 0⟩ ⟨0x1ffffffffff⟩ 1).1
  exact absurd h1 (by decide)

end DBUtl.RGenI
