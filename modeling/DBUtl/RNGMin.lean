import DBUtl.Lib.FullCycle
import DBUtl.RNGCache
import Mathlib.Algebra.Ring.Periodic
import Mathlib.Algebra.Order.Field.Rat
import Mathlib.Data.BitVec
import Mathlib.Tactic.NormNum
import Mathlib.Tactic.Ring

/-!
# The out-of-line generator against the inline one

`RGenO` hides `setSeed` with a static method that stores the seed in `RGenO::_seed`. The draws
are inherited and use the counter, which therefore stays where the constructor put it: at the
start of sequence `0x5a5a5a`. `RNGMin` and `RNGSmall` built with the same seed draw the same
sequence exactly when the seed names that one.

For the converse, suppose the sequence of another seed were the same. Then the right word would
have the difference of the two starts as a period. Some multiple of a nonzero difference is `2⁶³`,
and the right words at `0` and `2⁶³` differ.
-/

namespace DBUtl

open RGenI (next)

variable {R : Type*} [Double R]

/-! ## Runs of draws -/

theorem trace_draws_small (st : Statics R) (n : ℕ) (g : RGenI) :
    (TRNG R RGenI).trace (st, g) (List.replicate n .rand) =
      (List.range n).map fun i => .real ((next^[i] g).value st) := by
  induction n generalizing g with
  | zero => rfl
  | succ n ih =>
    rw [List.replicate_succ, Machine.trace_cons, List.range_succ_eq_map, List.map_cons,
      List.map_map]
    exact congrArg (Ret.real (g.value st) :: ·) (ih (next g))

/-- `RGenO::rand` is the inherited one, and looks at no static member but `_coeff`. -/
theorem trace_draws_min {st st' : Statics R} (h : st.coeff = st'.coeff) (n : ℕ) (g : RGenO) :
    (TRNG R RGenO).trace (st, g) (List.replicate n .rand) =
      (TRNG R RGenI).trace (st', g.toRGenI) (List.replicate n .rand) := by
  induction n generalizing g with
  | zero => rfl
  | succ n ih =>
    have hval : Ret.real (g.toRGenI.value st) = Ret.real (g.toRGenI.value st') := by
      simp [RGenI.value, RGenI.toUnitReal, h]
    rw [List.replicate_succ, Machine.trace_cons, Machine.trace_cons]
    exact congrArg₂ List.cons hval (ih ⟨next g.toRGenI⟩)

/-- The seed of `RNGMin` reaches the static member, not the counter. -/
theorem RNGMin.new_eq (st : Statics R) (now s : U32) :
    RNGMin.new st now s = (⟨unitCoeff R, s⟩, ⟨⟨RGenI.INIT_DATA⟩⟩) := by
  rw [RNGMin.new, show s ^^^ 0 = s from BitVec.xor_zero]
  rfl

/-! ## Values determine words -/

/-- As numbers of `R`, no two words have the same draw. -/
def WordsApart (R : Type*) [Double R] : Prop :=
  ∀ st : Statics R, st.coeff = unitCoeff R → Function.Injective (RGenI.toUnitReal st)

theorem unitCoeff_ne_zero : unitCoeff ℚ ≠ 0 := by
  norm_num [unitCoeff]

theorem wordsApart_rat : WordsApart ℚ := by
  intro st hst v w h
  have hmul : (v.toNat : ℚ) * st.coeff = (w.toNat : ℚ) * st.coeff := h
  have hne : st.coeff ≠ 0 := hst ▸ unitCoeff_ne_zero
  exact BitVec.eq_of_toNat_eq (Nat.cast_injective (mul_right_cancel₀ hne hmul))

/-- Equal values come from equal right words. -/
theorem rightWord_eq_of_value (hR : WordsApart R) {st : Statics R} (hst : st.coeff = unitCoeff R)
    {g g' : RGenI} (h : g.value st = g'.value st) : g.rightWord = g'.rightWord := hR st hst h

/-! ## Periods of the right word -/

theorem rightWord_zero_ne : (RGenI.mk 0).rightWord ≠ (RGenI.mk 0x8000000000000000).rightWord := by
  decide

/-- The right word has no period but zero. -/
theorem not_periodic_rightWord {δ : U64} (h0 : δ ≠ 0) :
    ¬ Function.Periodic (fun d => (RGenI.mk d).rightWord) δ := by
  intro hper
  obtain ⟨k, hk⟩ := FullCycle.exists_nsmul_eq_top h0
  have hhalf := hper.nsmul k 0
  rw [hk] at hhalf
  exact rightWord_zero_ne hhalf.symm

/-! ## `RNGMin` against `RNGSmall` -/

/-- The right words from two starts on agree only if their difference is a period. -/
theorem periodic_of_rightWord_eq {a b : U64}
    (h : ∀ i, (next^[i] (RGenI.mk a)).rightWord = (next^[i] (RGenI.mk b)).rightWord) :
    Function.Periodic (fun d => (RGenI.mk d).rightWord) (b - a) := by
  intro d
  have := h (d - a).toNat
  rw [RGenI.next_iterate, RGenI.next_iterate, BitVec.ofNat_toNat, BitVec.setWidth_eq] at this
  show (RGenI.mk (d + (b - a))).rightWord = (RGenI.mk d).rightWord
  rw [show d + (b - a) = b + (d - a) by ring, ← this, show a + (d - a) = d by ring]

theorem rightWord_eq_of_trace (hR : WordsApart R) {st : Statics R} (hst : st.coeff = unitCoeff R)
    {g g' : RGenI} (h : ∀ n, (TRNG R RGenI).trace (st, g) (List.replicate n .rand) =
      (TRNG R RGenI).trace (st, g') (List.replicate n .rand)) (i : ℕ) :
    (next^[i] g).rightWord = (next^[i] g').rightWord := by
  have hi := h (i + 1)
  rw [trace_draws_small, trace_draws_small] at hi
  have hval := List.map_inj_left.1 hi i (List.mem_range.2 (Nat.lt_succ_self i))
  exact rightWord_eq_of_value hR hst (Ret.real.inj hval)

/-- **The draws tell the state**: no two counters draw the same sequence. -/
theorem data_eq_of_trace (hR : WordsApart R) {st : Statics R} (hst : st.coeff = unitCoeff R)
    {g g' : RGenI} (h : ∀ n, (TRNG R RGenI).trace (st, g) (List.replicate n .rand) =
      (TRNG R RGenI).trace (st, g') (List.replicate n .rand)) : g'.data = g.data := by
  by_contra hne
  exact not_periodic_rightWord (sub_ne_zero.2 hne)
    (periodic_of_rightWord_eq (rightWord_eq_of_trace hR hst h))

/-- In any arithmetic that keeps the words apart. -/
theorem min_trace_eq_iff (hR : WordsApart R) (st : Statics R) (now s : U32)
    (hs : s.toNat % 2 ^ 24 ≠ 0) :
    (∀ n, (TRNG R RGenO).trace (RNGMin.new st now s) (List.replicate n .rand) =
        (TRNG R RGenI).trace (RNGSmall.new st now s) (List.replicate n .rand)) ↔
      s.toNat % 2 ^ 24 = 0x5a5a5a := by
  have hstart : (RGenI.start s).data = RGenI.INIT_DATA ↔ s.toNat % 2 ^ 24 = 0x5a5a5a := by
    rw [← BitVec.toNat_inj, RGenI.toNat_start,
      show RGenI.INIT_DATA.toNat = 0x5a5a5a * 2 ^ 40 from rfl]
    omega
  have hcoeff : (⟨unitCoeff R, s⟩ : Statics R).coeff =
      (⟨unitCoeff R, st.seed⟩ : Statics R).coeff := rfl
  have hmin (n : ℕ) := trace_draws_min hcoeff n ⟨⟨RGenI.INIT_DATA⟩⟩
  simp only [RNGMin.new_eq, RNGSmall.new_eq _ _ (ne_zero_of_low hs), ← hstart, hmin]
  constructor
  · intro h
    exact data_eq_of_trace hR rfl h
  · intro h n
    rw [← h]

/-- **`RNGMin` draws the sequence of its seed only for the seed `0x5a5a5a`.** -/
theorem rngMin_trace_eq_iff (st : Statics ℚ) (now s : U32) (hs : s.toNat % 2 ^ 24 ≠ 0) :
    (∀ n, (TRNG ℚ RGenO).trace (RNGMin.new st now s) (List.replicate n .rand) =
        (TRNG ℚ RGenI).trace (RNGSmall.new st now s) (List.replicate n .rand)) ↔
      s.toNat % 2 ^ 24 = 0x5a5a5a :=
  min_trace_eq_iff wordsApart_rat st now s hs

/-- Two seeds for the same sequence: the default one, and one with high bits. -/
theorem rngMin_trace_eq_iff_init :
    (∀ n, (TRNG ℚ RGenO).trace (RNGMin.new ⟨0, 0⟩ 0 0xff5a5a5a) (List.replicate n .rand) =
        (TRNG ℚ RGenI).trace (RNGSmall.new ⟨0, 0⟩ 0 0xff5a5a5a) (List.replicate n .rand)) ↔
      (0xff5a5a5a : U32).toNat % 2 ^ 24 = 0x5a5a5a :=
  rngMin_trace_eq_iff ⟨0, 0⟩ 0 0xff5a5a5a (by decide)

/-- The first draws of `RNGMin(1)` and `RNGSmall(1)` differ. -/
theorem rngMin_trace_ne :
    ¬ ∀ (st : Statics ℚ) (now s : U32), s.toNat % 2 ^ 24 ≠ 0 → ∀ n,
      (TRNG ℚ RGenO).trace (RNGMin.new st now s) (List.replicate n .rand) =
        (TRNG ℚ RGenI).trace (RNGSmall.new st now s) (List.replicate n .rand) := by
  intro h
  have h1 := h ⟨0, 0⟩ 0 1 (by decide) 1
  rw [RNGMin.new_eq, RNGSmall.new_eq _ _ (by decide)] at h1
  have hval : (RGenI.mk RGenI.INIT_DATA).value ⟨unitCoeff ℚ, 1⟩ =
      (RGenI.start 1).value ⟨unitCoeff ℚ, 1⟩ := Ret.real.inj (List.cons.inj h1).1
  exact absurd (rightWord_eq_of_value wordsApart_rat rfl hval) (by decide)

end DBUtl
