import Mathlib.Analysis.SpecialFunctions.Pow.Real

/-!
# Weighted power means of two numbers

The mean of `a` and `b` with an exponent `s` that is not zero and the weight `t` on `b`. As the
weight grows from `0` to `1` the mean grows from `a` to `b`, for positive exponents and for negative
ones: with a negative exponent the powers go down, and the root turns them around again. So each
number between them is the mean for one weight.
-/

namespace DBUtl

noncomputable def powerMean (s a b t : ℝ) : ℝ := ((1 - t) * a ^ s + t * b ^ s) ^ s⁻¹

section

variable {s a b t t' : ℝ}

theorem powerMean_zero (ha : 0 < a) (hs : s ≠ 0) : powerMean s a b 0 = a := by
  rw [powerMean, sub_zero, one_mul, zero_mul, add_zero, Real.rpow_rpow_inv ha.le hs]

theorem powerMean_base_pos (ha : 0 < a) (hb : 0 < b) (h0 : 0 ≤ t) (h1 : t ≤ 1) :
    0 < (1 - t) * a ^ s + t * b ^ s := by
  have hpa := Real.rpow_pos_of_pos ha s
  have hpb := Real.rpow_pos_of_pos hb s
  rcases h1.lt_or_eq with hlt | rfl
  · exact add_pos_of_pos_of_nonneg (mul_pos (sub_pos.2 hlt) hpa) (mul_nonneg h0 hpb.le)
  · simpa using hpb

/-- **The mean grows with the weight** on the larger number. -/
theorem powerMean_mono (ha : 0 < a) (hab : a ≤ b) (h0 : 0 ≤ t) (h : t ≤ t') (h1 : t' ≤ 1) :
    powerMean s a b t ≤ powerMean s a b t' := by
  have hb := ha.trans_le hab
  have hpos := powerMean_base_pos (s := s) ha hb h0 (h.trans h1)
  have hpos' := powerMean_base_pos (s := s) ha hb (h0.trans h) h1
  have hdiff : (1 - t') * a ^ s + t' * b ^ s - ((1 - t) * a ^ s + t * b ^ s) =
      (t' - t) * (b ^ s - a ^ s) := by ring
  rcases le_total 0 s with hs | hs
  · refine Real.rpow_le_rpow hpos.le (sub_nonneg.1 ?_) (inv_nonneg.2 hs)
    rw [hdiff]
    exact mul_nonneg (sub_nonneg.2 h) (sub_nonneg.2 (Real.rpow_le_rpow ha.le hab hs))
  · refine Real.rpow_le_rpow_of_nonpos hpos' (sub_nonpos.1 ?_) (inv_nonpos.2 hs)
    rw [hdiff]
    exact mul_nonpos_of_nonneg_of_nonpos (sub_nonneg.2 h)
      (sub_nonpos.2 (Real.rpow_le_rpow_of_nonpos ha hab hs))

/-- It stays below the larger number until all the weight is there. -/
theorem powerMean_lt (ha : 0 < a) (hab : a < b) (hs : s ≠ 0) (h0 : 0 ≤ t) (h1 : t < 1) :
    powerMean s a b t < b := by
  have hb := ha.trans hab
  have hpos := powerMean_base_pos (s := s) ha hb h0 h1.le
  have hdiff : b ^ s - ((1 - t) * a ^ s + t * b ^ s) = (1 - t) * (b ^ s - a ^ s) := by ring
  rw [powerMean]
  rcases lt_or_gt_of_ne hs with hneg | hpos'
  · rw [Real.rpow_inv_lt_iff_of_neg hpos hb hneg, ← sub_neg, hdiff]
    exact mul_neg_of_pos_of_neg (sub_pos.2 h1) (sub_neg.2 (Real.rpow_lt_rpow_of_neg ha hab hneg))
  · rw [Real.rpow_inv_lt_iff_of_pos hpos.le hb.le hpos', ← sub_pos, hdiff]
    exact mul_pos (sub_pos.2 h1) (sub_pos.2 (Real.rpow_lt_rpow ha.le hab hpos'))

/-! ## The weight that gives a mean -/

/-- The weight at which the mean is `x`. -/
noncomputable def powerWeight (s a b x : ℝ) : ℝ := (x ^ s - a ^ s) / (b ^ s - a ^ s)

variable {x y : ℝ}

theorem powerWeight_left : powerWeight s a b a = 0 := by
  rw [powerWeight, sub_self, zero_div]

theorem powerWeight_right (ha : 0 < a) (hab : a < b) (hs : s ≠ 0) : powerWeight s a b b = 1 := by
  refine div_self (sub_ne_zero.2 fun h => hab.ne' ?_)
  exact (Real.rpow_left_inj (ha.trans hab).le ha.le hs).1 h

/-- Whether the mean has come to `x` is a matter of the weight, for either sign of the exponent. -/
theorem le_powerMean_iff (ha : 0 < a) (hab : a < b) (hs : s ≠ 0) (hx : 0 < x) (h0 : 0 ≤ t)
    (h1 : t ≤ 1) : x ≤ powerMean s a b t ↔ powerWeight s a b x ≤ t := by
  have hbase := powerMean_base_pos (s := s) ha (ha.trans hab) h0 h1
  have hdiff : (1 - t) * a ^ s + t * b ^ s = t * (b ^ s - a ^ s) + a ^ s := by ring
  rcases lt_or_gt_of_ne hs with hneg | hpos
  · have hpow : b ^ s - a ^ s < 0 := sub_neg.2 (Real.rpow_lt_rpow_of_neg ha hab hneg)
    rw [powerMean, Real.le_rpow_inv_iff_of_neg hx hbase hneg, hdiff, powerWeight,
      div_le_iff_of_neg hpow, le_sub_iff_add_le]
  · have hpow : 0 < b ^ s - a ^ s := sub_pos.2 (Real.rpow_lt_rpow ha.le hab hpos)
    rw [powerMean, Real.le_rpow_inv_iff_of_pos hx.le hbase.le hpos, hdiff, powerWeight,
      div_le_iff₀ hpow, sub_le_iff_le_add]

theorem powerWeight_lt (ha : 0 < a) (hab : a < b) (hs : s ≠ 0) (hx : 0 < x) (hxy : x < y) :
    powerWeight s a b x < powerWeight s a b y := by
  rcases lt_or_gt_of_ne hs with hneg | hpos
  · have hpow : b ^ s - a ^ s < 0 := sub_neg.2 (Real.rpow_lt_rpow_of_neg ha hab hneg)
    have hlt := Real.rpow_lt_rpow_of_neg hx hxy hneg
    exact div_lt_div_of_neg_of_lt hpow (sub_lt_sub_right hlt _)
  · have hpow : 0 < b ^ s - a ^ s := sub_pos.2 (Real.rpow_lt_rpow ha.le hab hpos)
    have hlt := Real.rpow_lt_rpow hx.le hxy hpos
    exact div_lt_div_of_pos_right (sub_lt_sub_right hlt _) hpow

end

end DBUtl
