import DBUtl.RNGSelect

/-!
# Flips

`flip(p)` compares a draw with `p`, and counts equality as heads. The draws of `RNG2` lie strictly
between `0` and `1`. Those of `RNGSmall` are below `1`, but the word `0` is scaled to `0`, and every
word is hashed from some counter; so in some states `flip(0)` comes out heads.
-/

namespace DBUtl

/-! ## The methods -/

def TRNG.flip {G : Type*} [Generator ℚ G] (p : ℚ) (st : Statics ℚ) (g : G) : Bool × G :=
  let (x, g') := Generator.rand st g
  (x ≤ p, g')

def RNG2.flip (p : ℚ) (g : RNG2) : Option (Bool × RNG2) := do
  let (x, g') ← g.rand
  some (x ≤ p, g')

/-! ## One flip -/

/-- A flip that is certain comes out so: `p ≤ 0` never gives heads, and `p ≥ 1` always. -/
def Certain (p : ℚ) (heads : Bool) : Prop := (p ≤ 0 → heads = false) ∧ (1 ≤ p → heads = true)

/-- A draw from `[0, 1)` respects certainty unless it is `0`, and `p` too. -/
theorem certain_iff {x : ℚ} (h0 : 0 ≤ x) (h1 : x < 1) (p : ℚ) :
    Certain p (x ≤ p) ↔ ¬ (p = 0 ∧ x = 0) := by
  simp only [Certain, decide_eq_false_iff_not, decide_eq_true_iff, not_le]
  constructor
  · intro h hzero
    have hlt := h.1 hzero.1.le
    rw [hzero.1, hzero.2] at hlt
    exact lt_irrefl 0 hlt
  · intro h
    refine ⟨fun hp => ?_, fun hp => h1.le.trans hp⟩
    rcases h0.lt_or_eq with hpos | hzero
    · exact hp.trans_lt hpos
    · have hne : p ≠ 0 := fun hp0 => h ⟨hp0, hzero.symm⟩
      rw [← hzero]
      exact lt_of_le_of_ne hp hne

/-- Only the word `0` is scaled to `0`. -/
theorem toUnitReal_eq_zero_iff {st : Statics ℚ} (hst : st.coeff = unitCoeff ℚ) (w : U32) :
    RGenI.toUnitReal st w = 0 ↔ w = 0 := by
  have hne : st.coeff ≠ 0 := hst ▸ unitCoeff_pos.ne'
  rw [RGenI.toUnitReal, mul_eq_zero, or_iff_left hne, Nat.cast_eq_zero, ← BitVec.toNat_inj]
  rfl

/-! ## Flips in a reachable state -/

/-- The states that `RNGSmall` reaches. -/
theorem TRNG.certain_flip_iff (st : Statics ℚ) (calls : List Call) (p : ℚ) :
    Certain p (TRNG.flip p ((TRNG ℚ RGenI).exec (RGenI.new st) calls).1
        ((TRNG ℚ RGenI).exec (RGenI.new st) calls).2).1 ↔
      ¬ (p = 0 ∧ ((TRNG ℚ RGenI).exec (RGenI.new st) calls).2.rightWord = 0) := by
  have hst := coeff_exec_small (RGenI.new st) calls
  generalize (TRNG ℚ RGenI).exec (RGenI.new st) calls = s at hst ⊢
  obtain ⟨h0, h1⟩ := toUnitReal_mem hst s.2.rightWord
  rw [← toUnitReal_eq_zero_iff hst]
  exact certain_iff h0 h1 p

/-- The states that `RNG2` reaches. -/
theorem RNG2.certain_flip (raw : Vector ℤ RNG2.NTAB) (seed : Int32) (n : ℕ) (p : ℚ) :
    ∃ g₀ g heads g', RNG2.new raw seed = some g₀ ∧ g₀.after n = some g ∧
      g.flip p = some (heads, g') ∧ Certain p heads := by
  obtain ⟨g₀, g, g', hnew, hg, -, hrand, hlo, hhi⟩ := RNG2.rand_after raw seed n
  obtain ⟨-, hpos, hlt, -⟩ := RNG2.scaled_of_mem hlo hhi
  refine ⟨g₀, g, RNG2.scaled g'.iy ≤ p, g', hnew, hg, ?_, ?_⟩
  · simp [RNG2.flip, hrand]
  · exact (certain_iff hpos.le hlt p).2 fun h => hpos.ne' h.2

/-- **`flip` respects certainty**, in every state that `RNG2` reaches; and in a state that
`RNGSmall` reaches unless `p` is `0` and the counter is hashed to the word `0`. -/
theorem flip_certain_iff (st : Statics ℚ) (calls : List Call) (raw : Vector ℤ RNG2.NTAB)
    (seed : Int32) (n : ℕ) (p : ℚ) :
    (Certain p (TRNG.flip p ((TRNG ℚ RGenI).exec (RGenI.new st) calls).1
        ((TRNG ℚ RGenI).exec (RGenI.new st) calls).2).1 ↔
      ¬ (p = 0 ∧ ((TRNG ℚ RGenI).exec (RGenI.new st) calls).2.rightWord = 0)) ∧
    ∃ g₀ g heads g', RNG2.new raw seed = some g₀ ∧ g₀.after n = some g ∧
      g.flip p = some (heads, g') ∧ Certain p heads :=
  ⟨TRNG.certain_flip_iff st calls p, RNG2.certain_flip raw seed n p⟩

/-- From the position `0xe6ca3d314b` of sequence `0x5eef43`, `RNGSmall` draws `0`. -/
theorem flip_zero_heads :
    ¬ ∀ (st : Statics ℚ) (calls : List Call),
      (∀ c ∈ calls, (∃ s now, s ≠ 0 ∧ c = .setSeed s now) ∨ (∃ pos, c = .setpos pos) ∨ c = .rand) →
      ∀ p, Certain p (TRNG.flip p ((TRNG ℚ RGenI).exec (RGenI.new st) calls).1
        ((TRNG ℚ RGenI).exec (RGenI.new st) calls).2).1 := by
  intro h
  have hbad := h ⟨0, 0⟩ [.setSeed 0x5eef43 0, .setpos 0xe6ca3d314b] (by simp) 0
  rw [TRNG.certain_flip_iff] at hbad
  refine hbad ⟨rfl, ?_⟩
  have hstate : ((RGenI.mk RGenI.INIT_DATA).setSeed 0 0x5eef43).setPos 0xe6ca3d314b =
      ⟨0x5eef43e6ca3d314b⟩ := by
    rw [RGenI.setSeed_init 0 (by decide)]
    rfl
  show (((RGenI.mk RGenI.INIT_DATA).setSeed 0 0x5eef43).setPos 0xe6ca3d314b).rightWord = 0
  rw [hstate]
  decide

end DBUtl
