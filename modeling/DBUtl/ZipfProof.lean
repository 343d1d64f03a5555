import DBUtl.Lib.PowerMean
import DBUtl.Zipf
import Mathlib.Algebra.Order.BigOperators.Group.Finset
import Mathlib.NumberTheory.Harmonic.Defs
import Mathlib.Tactic.FieldSimp

/-!
# Zipf ranks over the reals

With exact arithmetic and the real power, the constants are finite sums and quotients, and the
closed form of the tail is `n` times a power mean of `2 / n` and `1`: the draw at which the tail
begins puts all weight on `2 / n`, and the weight on `1` grows with the draw. So the tail starts at
rank `2`, grows, and stays below `n`.

Two calls get no rank. For `theta = 1` the exponent of the tail is a quotient by zero. And for
`n = INT_MAX` the counter of the loop in `zeta` overflows.
-/

namespace DBUtl

namespace Zipf

open Arith (divide half truncate)

noncomputable section

/-- `pow` as the exact real power. -/
def rpow (x y : ℝ) : ℝ := x ^ y

/-! ## The sums -/

/-- The sum of the first `k` terms. -/
def zetaSum (theta : ℝ) (k : ℕ) : ℝ := ∑ l ∈ Finset.range k, (1 / ((l + 1 : ℕ) : ℝ)) ^ theta

section ZetaSum

variable {theta : ℝ}

theorem zetaSum_succ (k : ℕ) :
    zetaSum theta (k + 1) = zetaSum theta k + (1 / ((k + 1 : ℕ) : ℝ)) ^ theta :=
  Finset.sum_range_succ _ k

theorem zetaSum_one : zetaSum theta 1 = 1 := by
  simp [zetaSum]

theorem zetaSum_two : zetaSum theta 2 = 1 + (1 / 2) ^ theta := by
  rw [zetaSum_succ, zetaSum_one]
  norm_num

theorem zetaSum_mono {k k' : ℕ} (h : k ≤ k') : zetaSum theta k ≤ zetaSum theta k' :=
  Finset.sum_le_sum_of_subset_of_nonneg (Finset.range_mono h) fun _ _ _ =>
    Real.rpow_nonneg (by positivity) _

theorem one_le_zetaSum {k : ℕ} (h : 1 ≤ k) : 1 ≤ zetaSum theta k := by
  have hmono : zetaSum theta 1 ≤ zetaSum theta k := zetaSum_mono h
  rwa [zetaSum_one] at hmono

theorem zetaSum_theta_one (k : ℕ) : zetaSum 1 k = harmonic k := by
  induction k with
  | zero => simp [zetaSum]
  | succ k ih =>
    rw [zetaSum_succ, Real.rpow_one, one_div, ih, harmonic_succ]
    push_cast
    rfl

end ZetaSum

/-! ## The loop of `zeta` -/

theorem divide_of_ne {x y : ℝ} (h : y ≠ 0) : divide x y = some (x / y) := if_neg h

section Loop

variable {n : Int32} {theta : ℝ}

/-- One iteration. -/
theorem zetaLoop_step {i : ℤ} (hi : 1 ≤ i) (hin : i ≤ n.toInt) (ans : ℝ) :
    zetaLoop rpow n theta i ans =
      if i + 1 < 2 ^ 31 then zetaLoop rpow n theta (i + 1) (ans + (1 / (i : ℝ)) ^ theta)
      else none := by
  have hne : (i : ℝ) ≠ 0 := by exact_mod_cast (show i ≠ 0 by omega)
  have hdiv : divide ((1 : ℤ) : ℝ) (i : ℝ) = some (1 / (i : ℝ)) := by
    rw [divide_of_ne hne, Int.cast_one]
  rw [zetaLoop, if_pos hin]
  by_cases hlt : i + 1 < 2 ^ 31
  · have hfits : checked 31 (i + 1) = some (i + 1) := checked_of_fits ⟨by omega, hlt⟩
    rw [if_pos hlt]
    simp only [hdiv, Option.bind_some]
    split
    · simp_all
    · simp_all [rpow]
  · have hover : checked 31 (i + 1) = none := checked_of_not_fits fun h => hlt h.2
    rw [if_neg hlt]
    simp only [hdiv, Option.bind_some]
    split
    · rfl
    · simp_all

/-- The loop, with `k` iterations to go. -/
theorem zetaLoop_eq (hn : n ≠ Int32.maxValue) (k : ℕ) {i : ℤ} (hi : 1 ≤ i)
    (hk : i + k = n.toInt + 1) (ans : ℝ) :
    zetaLoop rpow n theta i ans =
      some (ans + ∑ l ∈ Finset.range k, (1 / ((i : ℝ) + l)) ^ theta) := by
  induction k generalizing i ans with
  | zero =>
    rw [zetaLoop, if_neg (by omega), Finset.sum_range_zero, add_zero]
  | succ k ih =>
    have hmax : n.toInt ≠ 2 ^ 31 - 1 := fun h => hn (Int32.toInt_inj.1 h)
    have hlt := n.toInt_lt
    rw [zetaLoop_step hi (by omega), if_pos (by omega), ih (by omega) (by omega),
      Finset.sum_range_succ', ← add_assoc]
    simp only [Int.cast_add, Int.cast_one, Nat.cast_add, Nat.cast_one, Nat.cast_zero, add_zero]
    rw [add_right_comm]
    simp only [add_assoc, add_comm (1 : ℝ)]

/-- **The sum is computed**, unless `n` is `INT_MAX`. -/
theorem zeta_eq (hn : n ≠ Int32.maxValue) (h1 : 1 ≤ n.toInt) :
    zeta rpow n theta = some (zetaSum theta n.toInt.toNat) := by
  have hloop : zetaLoop rpow n theta 1 0 = some (0 + _) :=
    zetaLoop_eq hn n.toInt.toNat (le_refl (1 : ℤ)) (by omega) 0
  rw [zero_add] at hloop
  rw [zeta, Int.cast_zero, hloop, zetaSum]
  congr 2
  funext l
  push_cast
  rw [add_comm]

/-- The last increment of the counter overflows. -/
theorem zetaLoop_maxValue (k : ℕ) {i : ℤ} (hi : 1 ≤ i) (hk : i + k = Int32.maxValue.toInt)
    (ans : ℝ) : zetaLoop rpow Int32.maxValue theta i ans = none := by
  have hmax : Int32.maxValue.toInt = 2 ^ 31 - 1 := rfl
  induction k generalizing i ans with
  | zero => rw [zetaLoop_step hi (by omega), if_neg (by omega)]
  | succ k ih => rw [zetaLoop_step hi (by omega), if_pos (by omega), ih (by omega) (by omega)]

theorem zeta_maxValue : zeta rpow Int32.maxValue theta = none :=
  zetaLoop_maxValue (2 ^ 31 - 2) (le_refl (1 : ℤ)) rfl _

end Loop

/-! ## The tail -/

/-- The weight on `1` in the tail: it is `0` where the tail begins, and `1` at `u = 1`. -/
def weight (theta : ℝ) (k : ℕ) (u : ℝ) : ℝ :=
  1 - (1 - u) / (1 - zetaSum theta 2 / zetaSum theta k)

/-- The closed form of the tail. -/
def tail (theta : ℝ) (k : ℕ) (u : ℝ) : ℝ :=
  k * powerMean (1 - theta) (2 / k) 1 (weight theta k u)

section Tail

variable {theta u u' : ℝ} {k : ℕ}

/-- A draw that comes to the tail: neither the first rank nor the second. -/
structure InTail (theta : ℝ) (k : ℕ) (u : ℝ) : Prop where
  nonneg : 0 ≤ u
  lt_one : u < 1
  le : 1 + (1 / 2) ^ theta ≤ u * zetaSum theta k

theorem zetaSum_two_pos : 0 < zetaSum theta 2 := zero_lt_one.trans_le (one_le_zetaSum one_le_two)

namespace InTail

/-- With two ranks there is no tail. -/
theorem three_le (h : InTail theta k u) : 3 ≤ k := by
  by_contra hk
  have hmono : zetaSum theta k ≤ zetaSum theta 2 := zetaSum_mono (by omega)
  have hle := h.le
  rw [← zetaSum_two] at hle
  have hmul := mul_le_mul_of_nonneg_left hmono h.nonneg
  have hpos : 0 < zetaSum theta 2 := zetaSum_two_pos
  have hlt := mul_lt_of_lt_one_left hpos h.lt_one
  linarith

theorem zetaSum_pos (h : InTail theta k u) : 0 < zetaSum theta k :=
  zero_lt_one.trans_le (one_le_zetaSum (by have := h.three_le; omega))

/-- The tail begins at the share of the first two ranks. -/
theorem share_le (h : InTail theta k u) : zetaSum theta 2 / zetaSum theta k ≤ u := by
  rw [div_le_iff₀ h.zetaSum_pos, zetaSum_two]
  exact h.le

theorem one_sub_share_pos (h : InTail theta k u) :
    0 < 1 - zetaSum theta 2 / zetaSum theta k := by
  have hle := h.share_le
  have hlt := h.lt_one
  linarith

theorem weight_mem (h : InTail theta k u) : 0 ≤ weight theta k u ∧ weight theta k u < 1 := by
  have hpos := h.one_sub_share_pos
  have hle := h.share_le
  have hquot : 0 < (1 - u) / (1 - zetaSum theta 2 / zetaSum theta k) :=
    div_pos (sub_pos.2 h.lt_one) hpos
  have hquot1 : (1 - u) / (1 - zetaSum theta 2 / zetaSum theta k) ≤ 1 := by
    rw [div_le_one hpos]
    linarith
  simp only [weight]
  exact ⟨by linarith, by linarith⟩

theorem weight_mono (h : InTail theta k u) (hu : u ≤ u') :
    weight theta k u ≤ weight theta k u' := by
  have hdiv := div_le_div_of_nonneg_right (sub_le_sub_left hu 1) h.one_sub_share_pos.le
  simp only [weight]
  linarith

theorem two_div_lt (h : InTail theta k u) : 0 < (2 : ℝ) / k ∧ (2 : ℝ) / k < 1 := by
  have hk : (3 : ℝ) ≤ k := by exact_mod_cast h.three_le
  have hpos : (0 : ℝ) < k := by linarith
  refine ⟨by positivity, ?_⟩
  rw [div_lt_one hpos]
  linarith

/-- **The tail starts at `2` and stays below `k`.** -/
theorem tail_mem (h : InTail theta k u) (htheta : theta ≠ 1) :
    2 ≤ tail theta k u ∧ tail theta k u < k := by
  have hs : 1 - theta ≠ 0 := sub_ne_zero.2 htheta.symm
  have hk : (0 : ℝ) < k := by exact_mod_cast (show 0 < k by have := h.three_le; omega)
  obtain ⟨ha, ha1⟩ := h.two_div_lt
  obtain ⟨hw0, hw1⟩ := h.weight_mem
  constructor
  · have hmono := powerMean_mono (s := 1 - theta) ha ha1.le le_rfl hw0 hw1.le
    rw [powerMean_zero ha hs] at hmono
    calc (2 : ℝ) = k * (2 / k) := by field_simp
      _ ≤ tail theta k u := mul_le_mul_of_nonneg_left hmono hk.le
  · have hlt := powerMean_lt ha ha1 hs hw0 hw1
    calc tail theta k u < k * 1 := mul_lt_mul_of_pos_left hlt hk
      _ = k := mul_one _

theorem tail_mono (h : InTail theta k u) (h' : InTail theta k u') (hu : u ≤ u') :
    tail theta k u ≤ tail theta k u' := by
  obtain ⟨ha, ha1⟩ := h.two_div_lt
  exact mul_le_mul_of_nonneg_left
    (powerMean_mono ha ha1.le h.weight_mem.1 (h.weight_mono hu) h'.weight_mem.2.le)
    (Nat.cast_nonneg k)

/-- What the code computes from `eta` and `alpha` is that closed form. -/
theorem tail_eq (h : InTail theta k u) :
    (k : ℝ) * rpow ((1 - rpow (2 / k) (1 - theta)) / (1 - zetaSum theta 2 / zetaSum theta k) * u -
        (1 - rpow (2 / k) (1 - theta)) / (1 - zetaSum theta 2 / zetaSum theta k) + 1)
      (1 / (1 - theta)) = tail theta k u := by
  have hne := h.one_sub_share_pos.ne'
  have hbase : (1 - rpow (2 / k) (1 - theta)) / (1 - zetaSum theta 2 / zetaSum theta k) * u -
        (1 - rpow (2 / k) (1 - theta)) / (1 - zetaSum theta 2 / zetaSum theta k) + 1 =
      (1 - weight theta k u) * (2 / k) ^ (1 - theta) + weight theta k u * 1 ^ (1 - theta) := by
    rw [Real.one_rpow, weight, rpow]
    generalize (2 / (k : ℝ)) ^ (1 - theta) = a at *
    generalize 1 - zetaSum theta 2 / zetaSum theta k = c at *
    field_simp
    ring
  rw [hbase, tail, powerMean, rpow, one_div]

end InTail

end Tail

/-! ## The rank of a draw -/

section Rank

variable {st : Statics ℝ} {n : Int32} {theta u z : ℝ}

theorem half_eq : (half : ℝ) = 1 / 2 := by
  have hhalf : (half : ℝ) = 1 / ((2 : ℤ) : ℝ) := rfl
  rw [hhalf, Int.cast_ofNat]

/-- The three branches, once the sum is there. -/
theorem rank_eq (hz : st.zetaN = some z) :
    rank rpow st u =
      if u * z < 1 then some 0
      else if u * z < 1 + (1 / 2) ^ st.theta then some 1
      else st.eta.bind fun eta => st.alpha.bind fun alpha =>
        truncate ((st.maxRandom.toInt : ℝ) * rpow (eta * u - eta + 1) alpha) := by
  simp only [rank, hz, Int.cast_one, half_eq]
  rfl

theorem truncate_of_mem {x : ℝ} (h0 : 0 ≤ x) (h1 : x < 2 ^ 31) : truncate x = some ⌊x⌋ := by
  have hfloor := Int.floor_nonneg.2 h0
  have hlt : ⌊x⌋ < 2 ^ 31 := by
    rw [Int.floor_lt]
    push_cast
    linarith
  have htruncate : truncate x = checked 31 (if 0 ≤ x then ⌊x⌋ else ⌈x⌉) := rfl
  rw [htruncate, if_pos h0]
  exact checked_of_fits ⟨by omega, hlt⟩

theorem cast_toNat (h1 : 1 ≤ n.toInt) : ((n.toInt.toNat : ℕ) : ℝ) = (n.toInt : ℝ) := by
  have hcast : ((n.toInt.toNat : ℕ) : ℤ) = n.toInt := Int.toNat_of_nonneg (by omega)
  exact_mod_cast congrArg (Int.cast (R := ℝ)) hcast

theorem zetaTwo_eq : (constants rpow n theta).zetaTwo = some (zetaSum theta 2) :=
  zeta_eq (by decide) (by decide)

/-- `eta`, where the tail needs it. -/
theorem eta_eq (hn : n ≠ Int32.maxValue) (h1 : 1 ≤ n.toInt)
    (h : InTail theta n.toInt.toNat u) :
    (constants rpow n theta).eta =
      some ((1 - rpow (2 / (n.toInt.toNat : ℝ)) (1 - theta)) /
        (1 - zetaSum theta 2 / zetaSum theta n.toInt.toNat)) := by
  have hne : (n.toInt : ℝ) ≠ 0 := by exact_mod_cast (show n.toInt ≠ 0 by omega)
  have heta : (constants rpow n theta).eta =
      (divide ((2 : ℤ) : ℝ) (n.toInt : ℝ)).bind fun x =>
        (constants rpow n theta).zetaTwo.bind fun z₂ => (constants rpow n theta).zetaN.bind fun z =>
          (divide z₂ z).bind fun q =>
            divide (((1 : ℤ) : ℝ) - rpow x (((1 : ℤ) : ℝ) - theta)) (((1 : ℤ) : ℝ) - q) := rfl
  have hzetaN : (constants rpow n theta).zetaN = some (zetaSum theta n.toInt.toNat) := zeta_eq hn h1
  rw [heta, zetaTwo_eq, hzetaN, divide_of_ne hne]
  simp only [Option.bind_some, divide_of_ne h.zetaSum_pos.ne', Int.cast_one, Int.cast_ofNat]
  rw [divide_of_ne h.one_sub_share_pos.ne', cast_toNat h1]

theorem alpha_eq (h : theta ≠ 1) : (constants rpow n theta).alpha = some (1 / (1 - theta)) := by
  have halpha : (constants rpow n theta).alpha = divide ((1 : ℤ) : ℝ) (((1 : ℤ) : ℝ) - theta) := rfl
  rw [halpha, Int.cast_one, divide_of_ne (sub_ne_zero.2 h.symm)]

theorem alpha_one : (constants rpow n (1 : ℝ)).alpha = none := by
  have halpha : (constants rpow n (1 : ℝ)).alpha = divide ((1 : ℤ) : ℝ) (((1 : ℤ) : ℝ) - 1) := rfl
  rw [halpha, Int.cast_one, sub_self]
  exact if_pos rfl

end Rank

/-! ## The ranks as a function of the draw -/

/-- The rank of a draw: two branches for the first two ranks, and the closed form of the tail. -/
def invert (theta : ℝ) (k : ℕ) (u : ℝ) : ℤ :=
  if u * zetaSum theta k < 1 then 0
  else if u * zetaSum theta k < 1 + (1 / 2) ^ theta then 1
  else ⌊tail theta k u⌋

section Invert

variable {n : Int32} {theta u u' : ℝ} {k : ℕ}

theorem InTail.floor_mem (h : InTail theta k u) (htheta : theta ≠ 1) :
    2 ≤ ⌊tail theta k u⌋ ∧ ⌊tail theta k u⌋ < k := by
  obtain ⟨hlo, hhi⟩ := h.tail_mem htheta
  constructor
  · rw [Int.le_floor]
    exact_mod_cast hlo
  · rw [Int.floor_lt]
    exact_mod_cast hhi

theorem invert_tail (h : InTail theta k u) : invert theta k u = ⌊tail theta k u⌋ := by
  have hpow : 0 < (1 / 2 : ℝ) ^ theta := by positivity
  have hle := h.le
  rw [invert, if_neg (by linarith), if_neg (by linarith)]

/-- The cases of a draw, with the rank in each. -/
theorem invert_cases (theta : ℝ) (k : ℕ) (h0 : 0 ≤ u) (h1 : u < 1) :
    (u * zetaSum theta k < 1 ∧ invert theta k u = 0) ∨
      (¬ u * zetaSum theta k < 1 ∧ u * zetaSum theta k < 1 + (1 / 2) ^ theta ∧
        invert theta k u = 1) ∨
      InTail theta k u := by
  by_cases hfirst : u * zetaSum theta k < 1
  · exact Or.inl ⟨hfirst, if_pos hfirst⟩
  by_cases hsecond : u * zetaSum theta k < 1 + (1 / 2) ^ theta
  · refine Or.inr (Or.inl ⟨hfirst, hsecond, ?_⟩)
    rw [invert, if_neg hfirst, if_pos hsecond]
  · exact Or.inr (Or.inr ⟨h0, h1, not_lt.1 hsecond⟩)

/-- **The code computes this rank**, if the loop counter does not overflow and the tail, where it is
come to, has an exponent. -/
theorem rank_constants (hn : n ≠ Int32.maxValue) (h1 : 1 ≤ n.toInt) (h0 : 0 ≤ u) (hlt : u < 1)
    (h : theta ≠ 1 ∨ u * zetaSum theta n.toInt.toNat < 1 + (1 / 2) ^ theta) :
    rank rpow (constants rpow n theta) u = some (invert theta n.toInt.toNat u) := by
  have hpow : 0 < (1 / 2 : ℝ) ^ theta := by positivity
  have hzetaN : (constants rpow n theta).zetaN = some (zetaSum theta n.toInt.toNat) := zeta_eq hn h1
  rw [rank_eq hzetaN]
  rcases invert_cases theta n.toInt.toNat h0 hlt with
    ⟨hfirst, hrank⟩ | ⟨hfirst, hsecond, hrank⟩ | htail
  · rw [if_pos hfirst, hrank]
  · have hbranch : u * zetaSum theta n.toInt.toNat < 1 + (1 / 2) ^ (constants rpow n theta).theta :=
      hsecond
    rw [if_neg hfirst, if_pos hbranch, hrank]
  · have hle := htail.le
    have htheta : theta ≠ 1 := h.resolve_right (by linarith)
    have hbranch :
        ¬ u * zetaSum theta n.toInt.toNat < 1 + (1 / 2) ^ (constants rpow n theta).theta :=
      not_lt.2 hle
    have hcast : ((constants rpow n theta).maxRandom.toInt : ℝ) = (n.toInt.toNat : ℝ) :=
      (cast_toNat h1).symm
    obtain ⟨hlo, hhi⟩ := htail.tail_mem htheta
    have hmax : (n.toInt.toNat : ℝ) < 2 ^ 31 := by
      rw [cast_toNat h1]
      exact_mod_cast n.toInt_lt
    rw [if_neg (by linarith), if_neg hbranch, eta_eq hn h1 htail, alpha_eq htheta,
      invert_tail htail]
    simp only [Option.bind_some]
    rw [hcast, htail.tail_eq]
    exact truncate_of_mem (by linarith) (hhi.trans hmax)

/-- For `theta = 1` the tail has no exponent. -/
theorem rank_one_tail (hn : n ≠ Int32.maxValue) (h1 : 1 ≤ n.toInt)
    (h : InTail 1 n.toInt.toNat u) : rank rpow (constants rpow n (1 : ℝ)) u = none := by
  have hpow : 0 < (1 / 2 : ℝ) ^ (1 : ℝ) := by positivity
  have hzetaN : (constants rpow n (1 : ℝ)).zetaN = some (zetaSum 1 n.toInt.toNat) := zeta_eq hn h1
  have hle := h.le
  have hbranch : ¬ u * zetaSum 1 n.toInt.toNat < 1 + (1 / 2) ^ (constants rpow n (1 : ℝ)).theta :=
    not_lt.2 hle
  rw [rank_eq hzetaN, if_neg (by linarith), if_neg hbranch, alpha_one]
  simp

/-- For `n = INT_MAX` there is no sum. -/
theorem rank_maxValue : rank rpow (constants rpow Int32.maxValue theta) u = none := by
  have hzetaN : (constants rpow Int32.maxValue theta).zetaN = none := zeta_maxValue
  simp [rank, hzetaN]

end Invert

/-! ## Results about calls -/

/-- The call returns a rank below `n`. Then nothing its result depends on was undefined. -/
def InRange (n : Int32) (ret : Ret) : Prop := ∃ r, ret = .returned r ∧ 0 ≤ r ∧ r < n.toInt

/-- What a call returns, after whatever calls came before it. -/
theorem zipf_eq (calls : List (Call ℝ)) (n : Int32) {theta : ℝ} (hpos : 0 < theta) (u : ℝ) :
    (zipf rpow n theta u ((machine rpow).exec Statics.init calls)).1 =
      .ofRank (rank rpow (constants rpow n theta) u) := by
  have hpos' : (((0 : ℤ) : ℝ)) < theta := by simpa using hpos
  have hstep := (step_eq (current_exec rpow calls) ⟨n, theta, u⟩).1
  rw [recomputed, if_pos hpos'] at hstep
  exact hstep

theorem invert_mem {theta u : ℝ} {k : ℕ} (hk : 1 ≤ k) (h0 : 0 ≤ u) (h1 : u < 1)
    (h : theta ≠ 1 ∨ u * zetaSum theta k < 1 + (1 / 2) ^ theta) :
    0 ≤ invert theta k u ∧ invert theta k u < k := by
  rcases invert_cases theta k h0 h1 with
    ⟨hfirst, hrank⟩ | ⟨hfirst, hsecond, hrank⟩ | htail
  · rw [hrank]
    omega
  · -- One rank alone has all the draws.
    have hne : k ≠ 1 := by
      rintro rfl
      rw [zetaSum_one, mul_one] at hfirst
      exact hfirst h1
    rw [hrank]
    omega
  · have hle := htail.le
    obtain ⟨hlo, hhi⟩ := htail.floor_mem (h.resolve_right (by linarith))
    rw [invert_tail htail]
    exact ⟨by omega, hhi⟩

/-- **`zipf` stays in range**, whatever calls came before, unless `n` is `INT_MAX`, or `theta` is
`1` and the draw comes to the tail. -/
theorem zipf_inRange_iff (calls : List (Call ℝ)) (n : Int32) (h1 : 1 ≤ n.toInt) (theta u : ℝ)
    (hpos : 0 < theta) (h0 : 0 ≤ u) (hlt : u < 1) :
    InRange n (zipf rpow n theta u ((machine rpow).exec Statics.init calls)).1 ↔
      n ≠ Int32.maxValue ∧ (theta ≠ 1 ∨ u * harmonic n.toInt.toNat < 3 / 2) := by
  have hbound : theta = 1 → (u * zetaSum theta n.toInt.toNat < 1 + (1 / 2) ^ theta ↔
      u * harmonic n.toInt.toNat < 3 / 2) := by
    rintro rfl
    rw [zetaSum_theta_one, Real.rpow_one, show (1 : ℝ) + 1 / 2 = 3 / 2 by norm_num]
  rw [zipf_eq calls n hpos]
  by_cases hn : n = Int32.maxValue
  · subst hn
    rw [rank_maxValue]
    simp [InRange, Ret.ofRank]
  by_cases hcond : theta ≠ 1 ∨ u * zetaSum theta n.toInt.toNat < 1 + (1 / 2) ^ theta
  · have hmem := invert_mem (show 1 ≤ n.toInt.toNat by omega) h0 hlt hcond
    rw [rank_constants hn h1 h0 hlt hcond]
    refine iff_of_true ⟨_, rfl, hmem.1, by omega⟩ ⟨hn, ?_⟩
    by_cases htheta : theta = 1
    · exact Or.inr ((hbound htheta).1 (hcond.resolve_left (not_not.2 htheta)))
    · exact Or.inl htheta
  · rw [not_or, not_not] at hcond
    obtain ⟨rfl, htail⟩ := hcond
    rw [rank_one_tail hn h1 ⟨h0, hlt, not_lt.1 htail⟩]
    refine iff_of_false (by simp [InRange, Ret.ofRank]) fun h => ?_
    exact htail ((hbound rfl).2 (h.2.resolve_left (not_not.2 rfl)))

/-- A draw of `1 / 2`, among ten ranks. -/
theorem zipf_inRange_ten :
    InRange 10 (zipf rpow 10 (1 / 2) (1 / 2) ((machine rpow).exec Statics.init [])).1 :=
  (zipf_inRange_iff [] 10 (by decide) (1 / 2) (1 / 2) (by norm_num) (by norm_num) (by norm_num)).2
    ⟨by decide, Or.inl (by norm_num)⟩

/-- Three ranks, `theta = 1`, and a draw of `0.9`. -/
theorem zipf_not_inRange :
    ¬ ∀ (calls : List (Call ℝ)) (n : Int32), 1 ≤ n.toInt → ∀ theta u : ℝ, 0 < theta → 0 ≤ u →
      u < 1 → InRange n (zipf rpow n theta u ((machine rpow).exec Statics.init calls)).1 := by
  intro h
  have hbad := h [] 3 (by decide) 1 (9 / 10) one_pos (by norm_num) (by norm_num)
  have hharmonic : harmonic (3 : Int32).toInt.toNat = 11 / 6 := by
    rw [show (3 : Int32).toInt.toNat = 0 + 1 + 1 + 1 by decide]
    norm_num [harmonic_succ]
  have htail : InTail 1 (3 : Int32).toInt.toNat (9 / 10) := by
    refine ⟨by norm_num, by norm_num, ?_⟩
    rw [zetaSum_theta_one, Real.rpow_one, hharmonic]
    norm_num
  rw [zipf_eq [] 3 one_pos, rank_one_tail (by decide) (by decide) htail] at hbad
  simp [InRange, Ret.ofRank] at hbad

/-- The three branches of `zipf` form one monotone inversion: every draw gets a rank, the rank does
not go down with the draw, the third branch gives ranks from `2` on, and the other two give `0`
and `1`. -/
def MonotoneInversion (n : Int32) (theta : ℝ) (st : Statics ℝ) : Prop :=
  ∃ f : ℝ → ℤ, (∀ u, 0 ≤ u → u < 1 → (zipf rpow n theta u st).1 = .returned (f u)) ∧
    (∀ u u', 0 ≤ u → u ≤ u' → u' < 1 → f u ≤ f u') ∧
    ∀ u z, 0 ≤ u → u < 1 → zeta rpow n theta = some z →
      (u * z < 1 → f u = 0) ∧
      (¬ u * z < 1 → u * z < 1 + rpow (1 / 2) theta → f u = 1) ∧
      (¬ u * z < 1 → ¬ u * z < 1 + rpow (1 / 2) theta → 2 ≤ f u ∧ f u < n.toInt)

theorem invert_mono {theta u u' : ℝ} {k : ℕ} (htheta : theta ≠ 1) (h0 : 0 ≤ u) (hu : u ≤ u')
    (h1 : u' < 1) : invert theta k u ≤ invert theta k u' := by
  have hz : 0 ≤ zetaSum theta k := Finset.sum_nonneg fun _ _ => Real.rpow_nonneg (by positivity) _
  have hmul := mul_le_mul_of_nonneg_right hu hz
  rcases invert_cases theta k h0 (hu.trans_lt h1) with ⟨-, hrank⟩ | ⟨hfirst, -, hrank⟩ | htail
  · rcases invert_cases theta k (h0.trans hu) h1 with ⟨-, hrank'⟩ | ⟨-, -, hrank'⟩ | htail'
    · rw [hrank, hrank']
    · rw [hrank, hrank']
      exact zero_le_one
    · rw [hrank, invert_tail htail']
      have hlo := (htail'.floor_mem htheta).1
      omega
  · rcases invert_cases theta k (h0.trans hu) h1 with ⟨hfirst', -⟩ | ⟨-, -, hrank'⟩ | htail'
    · exact absurd (hmul.trans_lt hfirst') hfirst
    · rw [hrank, hrank']
    · rw [hrank, invert_tail htail']
      have hlo := (htail'.floor_mem htheta).1
      omega
  · have htail' : InTail theta k u' := ⟨h0.trans hu, h1, htail.le.trans hmul⟩
    rw [invert_tail htail, invert_tail htail']
    exact Int.floor_mono (htail.tail_mono htail' hu)

/-- **The branches of `zipf` are one monotone inversion** for every `theta` but `1`, whatever calls
came before, unless `n` is `INT_MAX`. -/
theorem zipf_monotone_iff (calls : List (Call ℝ)) (n : Int32) (h1 : 1 ≤ n.toInt) (theta : ℝ)
    (hpos : 0 < theta) (htheta : theta ≠ 1) :
    MonotoneInversion n theta ((machine rpow).exec Statics.init calls) ↔ n ≠ Int32.maxValue := by
  constructor
  · rintro ⟨f, hreturned, -⟩ rfl
    have hzero := hreturned 0 le_rfl one_pos
    rw [zipf_eq calls _ hpos, rank_maxValue] at hzero
    cases hzero
  · intro hn
    refine ⟨invert theta n.toInt.toNat, fun u h0 hlt => ?_, fun u u' => invert_mono htheta,
      fun u z h0 hlt hz => ?_⟩
    · rw [zipf_eq calls n hpos, rank_constants hn h1 h0 hlt (Or.inl htheta)]
      rfl
    · obtain rfl : zetaSum theta n.toInt.toNat = z :=
        Option.some.inj ((zeta_eq hn h1).symm.trans hz)
      refine ⟨fun hfirst => if_pos hfirst, fun hfirst hsecond => ?_, fun hfirst hsecond => ?_⟩
      · exact (if_neg hfirst).trans (if_pos hsecond)
      · have htail : InTail theta n.toInt.toNat u := ⟨h0, hlt, not_lt.1 hsecond⟩
        have hmem := htail.floor_mem htheta
        rw [invert_tail htail]
        exact ⟨hmem.1, by omega⟩

/-- Ten ranks, on both sides of `theta = 1`. -/
theorem zipf_monotone_ten :
    MonotoneInversion 10 (1 / 2) ((machine rpow).exec Statics.init []) ∧
      MonotoneInversion 10 2 ((machine rpow).exec Statics.init []) :=
  ⟨(zipf_monotone_iff [] 10 (by decide) (1 / 2) (by norm_num) (by norm_num)).2 (by decide),
    (zipf_monotone_iff [] 10 (by decide) 2 (by norm_num) (by norm_num)).2 (by decide)⟩

/-- For `INT_MAX` ranks, no draw gets one. -/
theorem zipf_not_monotone :
    ¬ ∀ (calls : List (Call ℝ)) (n : Int32), 1 ≤ n.toInt → ∀ theta : ℝ, 0 < theta → theta ≠ 1 →
      MonotoneInversion n theta ((machine rpow).exec Statics.init calls) := by
  intro h
  have hbad := h [] Int32.maxValue (by decide) 2 (by norm_num) (by norm_num)
  obtain ⟨f, hreturned, -⟩ := hbad
  have hzero := hreturned 0 le_rfl one_pos
  rw [zipf_eq [] _ (by norm_num), rank_maxValue] at hzero
  cases hzero

end

end Zipf

end DBUtl
