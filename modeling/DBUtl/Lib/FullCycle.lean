import Mathlib.Algebra.BigOperators.Intervals
import Mathlib.Data.Fintype.BigOperators
import Mathlib.Data.Fintype.Card
import Mathlib.Data.Fintype.Prod
import Mathlib.Data.Fintype.EquivFin
import Mathlib.Data.BitVec
import Mathlib.Data.Nat.Factorization.Basic
import Mathlib.Tactic.Ring

/-!
# Counting along a full cycle

A `w`-bit counter passes through every word once in `2 ^ w` consecutive steps. A property of its
values therefore holds at as many steps as there are words that have it. Composed with a
permutation of pairs, this counts how often a given half comes out. Taken in steps of any other
size but zero, the counter still comes to the word that has only the top bit.
-/

namespace DBUtl.FullCycle

instance fintypeBitVec (w : ℕ) : Fintype (BitVec w) :=
  Fintype.ofEquiv (Fin (2 ^ w)) ⟨BitVec.ofFin, BitVec.toFin, fun _ => rfl, fun _ => rfl⟩

theorem card_bitVec (w : ℕ) : Fintype.card (BitVec w) = 2 ^ w := by
  rw [Fintype.ofEquiv_card, Fintype.card_fin]

/-- The steps below `N` at which `p` holds of `e i` are as many as the values that satisfy `p`,
when `e` takes each value once below `N`. -/
theorem card_filter_range {β : Type*} [Fintype β] {N : ℕ} {e : ℕ → β}
    (hinj : ∀ i < N, ∀ j < N, e i = e j → i = j) (hsurj : ∀ b, ∃ i < N, e i = b)
    (p : β → Prop) [DecidablePred p] :
    ((Finset.range N).filter fun i => p (e i)).card = (Finset.univ.filter p).card := by
  refine Finset.card_bij (fun i _ => e i) ?_ ?_ ?_
  · intro i hi
    simpa using (Finset.mem_filter.1 hi).2
  · intro i hi j hj h
    exact hinj i (Finset.mem_range.1 (Finset.mem_filter.1 hi).1) j
      (Finset.mem_range.1 (Finset.mem_filter.1 hj).1) h
  · intro b hb
    obtain ⟨i, hi, rfl⟩ := hsurj b
    exact ⟨i, by simpa [hi] using hb, rfl⟩

/-- **A counter counts.** Over `2 ^ w` consecutive steps from any start, a property holds as
often as it holds among all words. -/
theorem card_counter {w : ℕ} (d : BitVec w) (p : BitVec w → Prop) [DecidablePred p] :
    ((Finset.range (2 ^ w)).filter fun i => p (d + BitVec.ofNat w i)).card =
      (Finset.univ.filter p).card := by
  refine card_filter_range ?_ ?_ p
  · intro i hi j hj h
    have := congrArg BitVec.toNat (add_left_cancel h)
    rwa [BitVec.toNat_ofNat, BitVec.toNat_ofNat, Nat.mod_eq_of_lt hi, Nat.mod_eq_of_lt hj] at this
  · intro b
    refine ⟨(b - d).toNat, (b - d).isLt, ?_⟩
    rw [BitVec.ofNat_toNat, BitVec.setWidth_eq, add_sub_cancel]

/-- Through a bijection onto pairs, each second half is taken as often as there are first
halves. -/
theorem card_filter_snd {α β γ : Type*} [Fintype α] [Fintype β] [Fintype γ] [DecidableEq γ]
    {f : α → β × γ} (hf : Function.Bijective f) (c : γ) :
    (Finset.univ.filter fun a => (f a).2 = c).card = Fintype.card β := by
  rw [← Finset.card_univ]
  refine Finset.card_bij (fun a _ => (f a).1) (fun _ _ => Finset.mem_univ _) ?_ ?_
  · intro a ha b hb h
    simp only [Finset.mem_filter, Finset.mem_univ, true_and] at ha hb
    exact hf.1 (Prod.ext h (ha.trans hb.symm))
  · intro b _
    obtain ⟨a, ha⟩ := hf.2 (b, c)
    exact ⟨a, by simp [ha], by simp [ha]⟩

/-! ## Sums -/

section Sums

variable {M : Type*} [AddCommMonoid M]

/-- **The sum over a cycle** is the sum over all words, from any start. -/
theorem sum_counter {w : ℕ} (d : BitVec w) (f : BitVec w → M) :
    ∑ i ∈ Finset.range (2 ^ w), f (d + BitVec.ofNat w i) = ∑ b, f b := by
  refine Finset.sum_bij (fun i _ => d + BitVec.ofNat w i) (fun _ _ => Finset.mem_univ _) ?_ ?_
    fun _ _ => rfl
  · intro i hi j hj h
    have heq := congrArg BitVec.toNat (add_left_cancel h)
    rwa [BitVec.toNat_ofNat, BitVec.toNat_ofNat, Nat.mod_eq_of_lt (Finset.mem_range.1 hi),
      Nat.mod_eq_of_lt (Finset.mem_range.1 hj)] at heq
  · intro b _
    refine ⟨(b - d).toNat, Finset.mem_range.2 (b - d).isLt, ?_⟩
    rw [BitVec.ofNat_toNat, BitVec.setWidth_eq, add_sub_cancel]

/-- Through a bijection onto pairs, each second half counts as often as there are first halves. -/
theorem sum_snd {α β γ : Type*} [Fintype α] [Fintype β] [Fintype γ] {f : α → β × γ}
    (hf : Function.Bijective f) (h : γ → M) :
    ∑ a, h (f a).2 = Fintype.card β • ∑ c, h c := by
  calc ∑ a, h (f a).2 = ∑ p : β × γ, h p.2 := hf.sum_comp fun p => h p.2
    _ = ∑ _b : β, ∑ c, h c := Fintype.sum_prod_type fun p : β × γ => h p.2
    _ = Fintype.card β • ∑ c, h c := by rw [Finset.sum_const, Finset.card_univ]

/-- The words are the numbers below `2 ^ w`. -/
theorem sum_toNat (w : ℕ) (f : ℕ → M) :
    ∑ b : BitVec w, f b.toNat = ∑ i ∈ Finset.range (2 ^ w), f i := by
  rw [← sum_counter 0]
  refine Finset.sum_congr rfl fun i hi => ?_
  rw [zero_add, BitVec.toNat_ofNat, Nat.mod_eq_of_lt (Finset.mem_range.1 hi)]

end Sums

theorem card_toNat_lt (w m : ℕ) :
    (Finset.univ.filter fun b : BitVec w => b.toNat < m).card = min m (2 ^ w) := by
  have hcounts := sum_toNat w fun i => if i < m then 1 else 0
  rw [← Finset.card_filter, ← Finset.card_filter] at hcounts
  have hrange : (Finset.range (2 ^ w)).filter (· < m) = Finset.range (min m (2 ^ w)) := by
    ext i
    simp only [Finset.mem_filter, Finset.mem_range]
    omega
  rw [hcounts, hrange, Finset.card_range]

/-- Some multiple of a nonzero step is the top bit alone. -/
theorem exists_nsmul_eq_top {w : ℕ} {δ : BitVec (w + 1)} (h0 : δ ≠ 0) :
    ∃ k : ℕ, k • δ = BitVec.ofNat (w + 1) (2 ^ w) := by
  have hne : δ.toNat ≠ 0 := fun h => h0 (BitVec.eq_of_toNat_eq h)
  have hlt := δ.isLt
  obtain ⟨v, m, ⟨t, rfl⟩, hδ⟩ := Nat.exists_eq_two_pow_mul_odd hne
  have hv : v ≤ w := by
    by_contra hv
    have hpow : 2 ^ (w + 1) ≤ 2 ^ v := Nat.pow_le_pow_right (by decide) (by omega)
    have hle := Nat.mul_le_mul hpow (show 1 ≤ 2 * t + 1 by omega)
    omega
  have hmul : 2 ^ (w - v) * δ.toNat = 2 ^ w + 2 ^ (w + 1) * t := by
    rw [hδ, ← mul_assoc, ← pow_add, Nat.sub_add_cancel hv]
    ring
  refine ⟨2 ^ (w - v), BitVec.eq_of_toNat_eq ?_⟩
  rw [nsmul_eq_mul, BitVec.toNat_mul, BitVec.natCast_eq_ofNat, BitVec.toNat_ofNat,
    BitVec.toNat_ofNat, Nat.mod_mul_mod, hmul, Nat.add_mul_mod_self_left]

end DBUtl.FullCycle
