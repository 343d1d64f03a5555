import DBUtl.RNG2Proof
import Mathlib.Tactic.NormNum.Prime
import Mathlib.Tactic.ReduceModChar

/-!
# The period of `RNG2`'s pair of generators

`IM1` and `IM2` are prime, and `IA1` and `IA2` are primitive roots modulo them. So each generator
has the longest period there is, one less than its modulus; the two periods share the factor `2`
and no other.
-/

namespace DBUtl

namespace RNG2

/-! ## The moduli and the multipliers -/

theorem lucas1 : Nat.Prime 2147483563 ∧ orderOf (40014 : ZMod 2147483563) = 2147483563 - 1 := by
  refine prime_and_orderOf (a := 40014) [2, 3, 7, 631, 81031] ?_ (by norm_num) ?_ ?_
  · simp only [List.forall_mem_cons]
    norm_num
  · norm_num
    reduce_mod_char
  · simp only [List.forall_mem_cons]
    norm_num
    reduce_mod_char
    decide

theorem lucas2 : Nat.Prime 2147483399 ∧ orderOf (40692 : ZMod 2147483399) = 2147483399 - 1 := by
  refine prime_and_orderOf (a := 40692) [2, 19, 31, 1019, 1789] ?_ (by norm_num) ?_ ?_
  · simp only [List.forall_mem_cons]
    norm_num
  · norm_num
    reduce_mod_char
  · simp only [List.forall_mem_cons]
    norm_num
    reduce_mod_char
    decide

instance : Fact (Nat.Prime 2147483563) := ⟨lucas1.1⟩

instance : Fact (Nat.Prime 2147483399) := ⟨lucas2.1⟩

/-! ## The two generators -/

theorem seqX_eq_iff {m : ℤ} (hpos : 0 < m) (hlt : m < IM1) (k n : ℕ) :
    seqX m (k + n) = seqX m k ↔ 2147483562 ∣ n := by
  have hIA : ((40014 : ℤ) : ZMod 2147483563) ≠ 0 := by
    simp only [Int.cast_ofNat]
    decide
  have hk := lehmer_mem_of_start (A := 40014) (p := 2147483563) hpos hlt k
  have h := lehmer_eq_start_iff (p := 2147483563) 40014 (lehmer_pos hIA hpos hlt k) hk.2 n
  rw [Int.cast_ofNat, lucas1.2] at h
  rw [seqX, lehmer_add]
  exact h

theorem seqY_eq_iff {m : ℤ} (hpos : 0 < m) (hlt : m < IM2) (n : ℕ) :
    seqY m n = m ↔ 2147483398 ∣ n := by
  have h := lehmer_eq_start_iff (p := 2147483399) 40692 hpos hlt n
  rw [Int.cast_ofNat, lucas2.2] at h
  exact h

/-- The two periods share the factor `2` only. -/
theorem dvd_both_iff (n : ℕ) :
    (2147483562 ∣ n ∧ 2147483398 ∣ n) ↔ (IM1 - 1) * (IM2 - 1) / 2 ∣ (n : ℤ) := by
  have hlcm : (IM1 - 1) * (IM2 - 1) / 2 = ((Nat.lcm 2147483562 2147483398 : ℕ) : ℤ) := by
    decide
  rw [hlcm, Int.natCast_dvd_natCast, Nat.lcm_dvd_iff]

/-! ## The pair -/

/-- **The pair of generators has its full combined period**: from a seed that is not a multiple
of a modulus, it is back where the constructor left it after the multiples of
`(IM1 - 1) * (IM2 - 1) / 2` draws, and after no other number of draws. -/
theorem pair_returns_iff (raw : Vector ℤ NTAB) (seed : Int32) (hpos : 1 ≤ |seed.toInt|)
    (hlt : |seed.toInt| < 2147483399) (n : ℕ) :
    ∃ g₀ g, new raw seed = some g₀ ∧ g₀.after n = some g ∧
      ((g.idum, g.idum2) = (g₀.idum, g₀.idum2) ↔ (IM1 - 1) * (IM2 - 1) / 2 ∣ (n : ℤ)) := by
  have hmag : (magnitude seed).toInt = |seed.toInt| := by
    rw [magnitude_toInt, if_neg]
    · rintro rfl
      exact absurd hpos (by decide)
    · rintro rfl
      exact absurd hlt (by decide)
  obtain ⟨g₀, hnew, h₀⟩ := tracks_new raw seed
  obtain ⟨g, hg, h⟩ := tracks_after hnew n
  rw [hmag] at h h₀
  refine ⟨g₀, g, hnew, hg, ?_⟩
  rw [Prod.mk.injEq, h.idum, h.idum2, h₀.idum, h₀.idum2, ← dvd_both_iff]
  exact and_congr (seqX_eq_iff hpos (hlt.trans (by decide)) 40 n) (seqY_eq_iff hpos hlt n)

theorem pair_returns_iff_one :
    ∃ g₀ g, new (Vector.replicate 32 0) 1 = some g₀ ∧ g₀.after 3 = some g ∧
      ((g.idum, g.idum2) = (g₀.idum, g₀.idum2) ↔ (IM1 - 1) * (IM2 - 1) / 2 ∣ ((3 : ℕ) : ℤ)) :=
  pair_returns_iff (Vector.replicate 32 0) 1 (by decide) (by decide) 3

end RNG2

end DBUtl
