import DBUtl.RNG2Period

/-!
# The seeds of `RNG2`

The constructor replaces the seed `0`, from which both generators would stay at `0`. A generator
stays there from a multiple of its modulus too, and the magnitude of a seed can be one: each modulus
is below `2³¹`, and twice the modulus is above.
-/

namespace DBUtl

namespace RNG2

/-- `INT_MIN` included, whose negation is itself. -/
theorem natAbs_magnitude (seed : Int32) :
    (magnitude seed).toInt.natAbs = if seed = 0 then 1 else seed.toInt.natAbs := by
  by_cases hmin : seed = Int32.minValue
  · subst hmin
    rfl
  · rw [magnitude_toInt hmin]
    by_cases h0 : seed = 0
    · rw [if_pos h0, if_pos h0]
      rfl
    · rw [if_neg h0, if_neg h0, Int.natAbs_abs]

/-- A modulus that is more than half of `2³¹` divides no magnitude but itself. -/
theorem dvd_magnitude_iff {p : ℕ} (hlo : 2 ^ 30 < p) (seed : Int32) :
    (p : ℤ) ∣ (magnitude seed).toInt ↔ |seed.toInt| = p := by
  have hle := seed.le_toInt
  have hlt := seed.toInt_lt
  rw [Int.natCast_dvd, natAbs_magnitude, Int.abs_eq_natAbs, Int.natCast_inj]
  by_cases h0 : seed = 0
  · subst h0
    have hzero : (0 : Int32).toInt.natAbs = 0 := rfl
    rw [if_pos rfl, hzero, Nat.dvd_one]
    omega
  · have hne : seed.toInt ≠ 0 := fun h => h0 (Int32.toInt_inj.1 h)
    rw [if_neg h0]
    constructor
    · rintro ⟨k, hk⟩
      have hk1 : k = 1 := by
        by_contra hk1
        have hcases : k = 0 ∨ 2 ≤ k := by omega
        rcases hcases with rfl | h2
        · omega
        · have := Nat.mul_le_mul_left p h2
          omega
      rw [hk, hk1, Nat.mul_one]
    · intro h
      rw [h]

theorem IA1_ne_zero : ((40014 : ℤ) : ZMod 2147483563) ≠ 0 := by
  rw [Int.cast_ofNat]
  decide

theorem IA2_ne_zero : ((40692 : ℤ) : ZMod 2147483399) ≠ 0 := by
  rw [Int.cast_ofNat]
  decide

/-- A generator is alive unless the magnitude of the seed is its modulus. -/
theorem lehmer_alive_iff {A : ℤ} {p : ℕ} [Fact p.Prime] (hA : (A : ZMod p) ≠ 0) (hlo : 2 ^ 30 < p)
    (seed : Int32) {n : ℕ} (hn : 1 ≤ n) :
    (1 ≤ lehmer A p (magnitude seed).toInt n ∧ lehmer A p (magnitude seed).toInt n ≤ p - 1) ↔
      |seed.toInt| ≠ p := by
  have hmem : 0 ≤ lehmer A p (magnitude seed).toInt n ∧ lehmer A p (magnitude seed).toInt n < p :=
    lehmer_mem (by omega) hn
  rw [ne_eq, ← dvd_magnitude_iff hlo seed, ← lehmer_eq_zero_iff hA hn]
  omega

theorem seqX_alive_iff (seed : Int32) {n : ℕ} (hn : 1 ≤ n) :
    (1 ≤ seqX (magnitude seed).toInt n ∧ seqX (magnitude seed).toInt n ≤ IM1 - 1) ↔
      |seed.toInt| ≠ 2147483563 :=
  lehmer_alive_iff (p := 2147483563) IA1_ne_zero (by norm_num) seed hn

theorem seqY_alive_iff (seed : Int32) {n : ℕ} (hn : 1 ≤ n) :
    (1 ≤ seqY (magnitude seed).toInt n ∧ seqY (magnitude seed).toInt n ≤ IM2 - 1) ↔
      |seed.toInt| ≠ 2147483399 :=
  lehmer_alive_iff (p := 2147483399) IA2_ne_zero (by norm_num) seed hn

/-- What is asked of a seed: after the constructor and after every draw, both generators are alive,
and so is every entry of the table. -/
def Alive (raw : Vector ℤ NTAB) (seed : Int32) : Prop :=
  ∃ g₀, new raw seed = some g₀ ∧ (1 ≤ g₀.idum ∧ g₀.idum ≤ IM1 - 1) ∧
    (∀ (j : ℕ) (hj : j < 32), 1 ≤ g₀.iv[j] ∧ g₀.iv[j] ≤ IM1 - 1) ∧
    ∀ n, 1 ≤ n → ∃ g, g₀.after n = some g ∧ (1 ≤ g.idum ∧ g.idum ≤ IM1 - 1) ∧
      (1 ≤ g.idum2 ∧ g.idum2 ≤ IM2 - 1)

/-- **A seed disables a component of `RNG2` exactly if its magnitude is a modulus.** -/
theorem alive_iff (raw : Vector ℤ NTAB) (seed : Int32) :
    Alive raw seed ↔ |seed.toInt| ≠ 2147483563 ∧ |seed.toInt| ≠ 2147483399 := by
  obtain ⟨g₀, hnew, h₀⟩ := tracks_new raw seed
  constructor
  · rintro ⟨g₀', hnew', hidum, -, hafter⟩
    obtain rfl : g₀' = g₀ := Option.some.inj (hnew'.symm.trans hnew)
    obtain ⟨g, hg, -, hidum2⟩ := hafter 1 le_rfl
    obtain ⟨g₁, hg₁, h₁⟩ := tracks_after hnew 1
    obtain rfl : g = g₁ := Option.some.inj (hg.symm.trans hg₁)
    rw [h₀.idum] at hidum
    rw [h₁.idum2] at hidum2
    exact ⟨(seqX_alive_iff seed (by omega)).1 hidum, (seqY_alive_iff seed le_rfl).1 hidum2⟩
  · rintro ⟨hX, hY⟩
    refine ⟨g₀, hnew, ?_, fun j hj => ?_, fun n hn => ?_⟩
    · rw [h₀.idum]
      exact (seqX_alive_iff seed (by omega)).2 hX
    · rw [h₀.iv j hj]
      exact (seqX_alive_iff seed (show 1 ≤ 40 - j by omega)).2 hX
    · obtain ⟨g, hg, h⟩ := tracks_after hnew n
      refine ⟨g, hg, ?_, ?_⟩
      · rw [h.idum]
        exact (seqX_alive_iff seed (by omega)).2 hX
      · rw [h.idum2]
        exact (seqY_alive_iff seed hn).2 hY

/-- The seed `IM1` leaves the first generator at `0`. -/
theorem not_alive : ¬ ∀ (raw : Vector ℤ NTAB) (seed : Int32), Alive raw seed := by
  intro h
  have hbad := h (Vector.replicate 32 0) 2147483563
  obtain ⟨g₀, hnew, hidum, -⟩ := hbad
  obtain ⟨g₁, hnew₁, h₁⟩ := tracks_new (Vector.replicate 32 0) 2147483563
  obtain rfl : g₁ = g₀ := Option.some.inj (hnew₁.symm.trans hnew)
  rw [h₁.idum] at hidum
  exact (seqX_alive_iff 2147483563 (by omega)).1 hidum rfl

end RNG2

end DBUtl
