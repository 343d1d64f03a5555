import DBUtl.Lib.Feistel
import DBUtl.Lib.FullCycle
import DBUtl.RNGWord
import Mathlib.Logic.Equiv.Basic

/-!
# `psdes` is a permutation, and the draws are equidistributed

The function `psdesMix` that an iteration of `psdes` applies to the right word is not injective.
But it is only ever xored into the left word, and the words then change places: an iteration is
a Feistel round, so `psdes` permutes the pairs of words. The counter of `RGenI` runs through all
pairs once in `2 ^ 64` draws, hence every word is the right word of `2 ^ 32` of them.
-/

namespace DBUtl.RGenI

/-! ## The hash as a network -/

/-- What iteration `i` does to the left word, given the right word. -/
def psdesPerm (i : Fin NITER) (iswap : U32) : Equiv.Perm U32 :=
  Function.Involutive.toPerm (· ^^^ psdesMix i iswap) fun lword => by
    show lword ^^^ psdesMix i iswap ^^^ psdesMix i iswap = lword
    rw [BitVec.xor_assoc, BitVec.xor_self, BitVec.xor_zero]

theorem psdesRound_eq (i : Fin NITER) (w : U32 × U32) :
    psdesRound i w = Feistel.round (psdesPerm i) w := rfl

theorem psdes_eq_network (w : U32 × U32) :
    psdes w.1 w.2 = Feistel.network ((List.finRange NITER).map psdesPerm) w := by
  rw [← Feistel.foldl_eq_network, List.foldl_map]
  simp only [psdes, psdesRound_eq]

theorem psdes_bijective : Function.Bijective fun w : U32 × U32 => psdes w.1 w.2 := by
  simp only [psdes_eq_network]
  exact Equiv.bijective _

/-! ## The words of the counter -/

/-- The high and the low word of a counter, as `rand` passes them to `psdes`. -/
def words (d : U64) : U32 × U32 := ((d >>> 32).setWidth 32, d.setWidth 32)

theorem rightWord_eq (g : RGenI) : g.rightWord = (psdes (words g.data).1 (words g.data).2).2 := rfl

theorem words_bijective : Function.Bijective words := by
  have hhi (d : U64) : (words d).1.toNat = d.toNat / 2 ^ 32 := by
    rw [words, BitVec.toNat_setWidth, BitVec.toNat_ushiftRight, Nat.shiftRight_eq_div_pow]
    have := d.isLt
    omega
  have hlo (d : U64) : (words d).2.toNat = d.toNat % 2 ^ 32 := BitVec.toNat_setWidth _ _
  constructor
  · intro d e h
    have h1 := congrArg (fun w : U32 × U32 => w.1.toNat) h
    have h2 := congrArg (fun w : U32 × U32 => w.2.toNat) h
    simp only [hhi, hlo] at h1 h2
    apply BitVec.eq_of_toNat_eq
    omega
  · intro w
    have h1 := w.1.isLt
    have h2 := w.2.isLt
    refine ⟨BitVec.ofNat 64 (w.1.toNat * 2 ^ 32 + w.2.toNat), Prod.ext ?_ ?_⟩
    · apply BitVec.eq_of_toNat_eq
      rw [hhi, BitVec.toNat_ofNat]
      omega
    · apply BitVec.eq_of_toNat_eq
      rw [hlo, BitVec.toNat_ofNat]
      omega

/-- **The right words over a full cycle.** Among the `2 ^ 64` states from `g` on, each word is
the right word of `2 ^ 32`. -/
theorem card_rightWord (g : RGenI) (w : U32) :
    ((Finset.range (2 ^ 64)).filter fun i => (next^[i] g).rightWord = w).card = 2 ^ 32 := by
  have hbij := psdes_bijective.comp words_bijective
  simp only [next_iterate, rightWord_eq]
  rw [FullCycle.card_counter g.data fun d => (psdes (words d).1 (words d).2).2 = w]
  exact (FullCycle.card_filter_snd hbij w).trans (FullCycle.card_bitVec 32)

variable {R : Type*} [Double R]

/-- **Equidistribution.** `psdes` permutes the pairs of 32-bit words, and among `2 ^ 64`
consecutive calls of `rand` every word is handed to `toUnitReal` exactly `2 ^ 32` times. -/
theorem rightWord_equidistributed :
    (Function.Bijective fun w : U32 × U32 => psdes w.1 w.2) ∧
    ∀ (st : Statics R) (g : RGenI) (w : U32),
      ((Finset.range (2 ^ 64)).filter fun i =>
        ((fun h : RGenI => (h.rand st).2)^[i] g).rightWord = w).card = 2 ^ 32 :=
  ⟨psdes_bijective, fun _ g w => card_rightWord g w⟩

end DBUtl.RGenI
