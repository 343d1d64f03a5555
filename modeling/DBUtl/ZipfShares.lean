import DBUtl.ZipfProof

/-!
# The shares of the ranks

The ranks cut the unit interval into pieces: a draw gets rank `r` when it lies between `share r` and
`share (r + 1)`. The first two pieces have the lengths of the Zipf distribution. In the others the
closed form of the tail passes from one number to the next, so their ends are weights of a power
mean (`powerWeight`). The pieces cover the interval, and none is empty.
-/

namespace DBUtl

namespace Zipf

noncomputable section

/-- The draws that get one of the first `r` ranks, among `k`. -/
def share (theta : ℝ) (k r : ℕ) : ℝ :=
  if r = 0 then 0
  else if r = 1 then 1 / zetaSum theta k
  else
    1 - (1 - zetaSum theta 2 / zetaSum theta k) *
      (1 - powerWeight (1 - theta) ((2 : ℕ) / k) 1 (r / k))

section Share

variable {theta u : ℝ} {k r : ℕ}

theorem zetaSum_pos (hk : 1 ≤ k) : 0 < zetaSum theta k := zero_lt_one.trans_le (one_le_zetaSum hk)

/-- More ranks, larger sum. -/
theorem zetaSum_lt {k k' : ℕ} (h : k < k') : zetaSum theta k < zetaSum theta k' := by
  have hterm : 0 < (1 / ((k + 1 : ℕ) : ℝ)) ^ theta := by positivity
  calc zetaSum theta k < zetaSum theta (k + 1) := by
        rw [zetaSum_succ]
        exact lt_add_of_pos_right _ hterm
    _ ≤ zetaSum theta k' := zetaSum_mono h

theorem share_zero : share theta k 0 = 0 := if_pos rfl

theorem share_one : share theta k 1 = 1 / zetaSum theta k := by
  rw [share, if_neg one_ne_zero, if_pos rfl]

theorem share_add_two : share theta k (r + 2) =
    1 - (1 - zetaSum theta 2 / zetaSum theta k) *
      (1 - powerWeight (1 - theta) (2 / k) 1 ((r + 2 : ℕ) / k)) := by
  rw [share, if_neg (by omega), if_neg (by omega), Nat.cast_ofNat]

theorem share_two : share theta k 2 = zetaSum theta 2 / zetaSum theta k := by
  have hcast : ((0 + 2 : ℕ) : ℝ) = 2 := by norm_num
  rw [share_add_two, hcast, powerWeight_left]
  ring

/-- The two ends of the tail. -/
theorem two_div_mem (hk : 3 ≤ k) : 0 < (2 : ℝ) / k ∧ (2 : ℝ) / k < 1 := by
  have hcast : (3 : ℝ) ≤ k := by exact_mod_cast hk
  have hpos : (0 : ℝ) < k := by linarith
  refine ⟨by positivity, ?_⟩
  rw [div_lt_one hpos]
  linarith

theorem share_last (hk : 1 ≤ k) (htheta : theta ≠ 1) : share theta k k = 1 := by
  match k, hk with
  | 1, _ => rw [share_one, zetaSum_one, div_one]
  | 2, _ => rw [share_two, div_self (zetaSum_pos one_le_two).ne']
  | k + 3, _ =>
    obtain ⟨ha, ha1⟩ := two_div_mem (Nat.le_add_left 3 k)
    have hone : ((k + 1 + 2 : ℕ) : ℝ) / ((k + 3 : ℕ) : ℝ) = 1 := div_self (by positivity)
    rw [share_add_two, hone, powerWeight_right ha ha1 (sub_ne_zero.2 htheta.symm)]
    ring

/-- Every rank has a share. -/
theorem share_succ (htheta : theta ≠ 1) (hk : r + 1 ≤ k) :
    share theta k r < share theta k (r + 1) := by
  have hz : 0 < zetaSum theta k := zetaSum_pos (by omega)
  match r, hk with
  | 0, _ =>
    rw [share_zero, share_one]
    positivity
  | 1, hk =>
    have htwo : zetaSum theta 1 < zetaSum theta 2 := zetaSum_lt one_lt_two
    rw [zetaSum_one] at htwo
    rw [share_two, share_one]
    exact div_lt_div_of_pos_right htwo hz
  | r + 2, hk =>
    obtain ⟨ha, ha1⟩ := two_div_mem (show 3 ≤ k by omega)
    have hkpos : (0 : ℝ) < k := by exact_mod_cast (show 0 < k by omega)
    have hrest : 0 < 1 - zetaSum theta 2 / zetaSum theta k := by
      rw [sub_pos, div_lt_one hz]
      exact zetaSum_lt (by omega)
    have hlt : powerWeight (1 - theta) (2 / k) 1 ((r + 2 : ℕ) / k) <
        powerWeight (1 - theta) (2 / k) 1 ((r + 1 + 2 : ℕ) / k) := by
      refine powerWeight_lt ha ha1 (sub_ne_zero.2 htheta.symm) (by positivity) ?_
      refine div_lt_div_of_pos_right ?_ hkpos
      exact_mod_cast (show r + 2 < r + 1 + 2 by omega)
    rw [share_add_two, show r + 2 + 1 = r + 1 + 2 from rfl, share_add_two]
    exact sub_lt_sub_left (mul_lt_mul_of_pos_left (sub_lt_sub_left hlt 1) hrest) 1

theorem share_lt (htheta : theta ≠ 1) {r' : ℕ} (h : r < r') (hk : r' ≤ k) :
    share theta k r < share theta k r' := by
  induction r', h using Nat.le_induction with
  | base => exact share_succ htheta hk
  | succ r' h ih => exact (ih (by omega)).trans (share_succ htheta hk)

/-- In the tail, a number is passed where the weight is that of its mean. -/
theorem le_tail_iff (h : InTail theta k u) (htheta : theta ≠ 1) :
    ((r + 2 : ℕ) : ℝ) ≤ tail theta k u ↔ share theta k (r + 2) ≤ u := by
  obtain ⟨ha, ha1⟩ := two_div_mem h.three_le
  obtain ⟨hw0, hw1⟩ := h.weight_mem
  have hkpos : (0 : ℝ) < k := by exact_mod_cast (show 0 < k by have := h.three_le; omega)
  have hrest := h.one_sub_share_pos
  rw [tail, ← div_le_iff₀' hkpos,
    le_powerMean_iff ha ha1 (sub_ne_zero.2 htheta.symm) (by positivity) hw0 hw1.le, weight,
    share_add_two]
  generalize powerWeight (1 - theta) (2 / k) 1 ((r + 2 : ℕ) / k) = x
  generalize 1 - zetaSum theta 2 / zetaSum theta k = c at hrest ⊢
  rw [le_sub_comm, div_le_iff₀ hrest, mul_comm, sub_le_comm]

/-- **Where a rank begins.** -/
theorem le_invert_iff (hk : 1 ≤ k) (htheta : theta ≠ 1) (h0 : 0 ≤ u) (h1 : u < 1) (hr : r ≤ k) :
    (r : ℤ) ≤ invert theta k u ↔ share theta k r ≤ u := by
  have hz : 0 < zetaSum theta k := zetaSum_pos hk
  match r, hr with
  | 0, _ =>
    have hmem := invert_mem hk h0 h1 (Or.inl htheta)
    exact iff_of_true hmem.1 (share_zero.trans_le h0)
  | 1, _ =>
    rw [share_one, div_le_iff₀ hz]
    rcases invert_cases theta k h0 h1 with ⟨hfirst, hrank⟩ | ⟨hfirst, -, hrank⟩ | htail
    · exact iff_of_false (by rw [hrank]; decide) (not_le.2 hfirst)
    · exact iff_of_true (by rw [hrank]; decide) (not_lt.1 hfirst)
    · have hlo := (htail.floor_mem htheta).1
      have hpow : 0 < (1 / 2 : ℝ) ^ theta := by positivity
      have hle := htail.le
      rw [invert_tail htail]
      exact iff_of_true (by push_cast; omega) (by linarith)
  | r + 2, hr =>
    have hshare : share theta k 2 ≤ share theta k (r + 2) := by
      rcases Nat.eq_zero_or_pos r with rfl | hpos
      · exact le_rfl
      · exact (share_lt htheta (by omega) hr).le
    rw [share_two, div_le_iff₀ hz, zetaSum_two] at hshare
    by_cases hsecond : 1 + (1 / 2) ^ theta ≤ u * zetaSum theta k
    · have htail : InTail theta k u := ⟨h0, h1, hsecond⟩
      rw [invert_tail htail, Int.le_floor, ← le_tail_iff htail htheta]
      norm_cast
    · have hrank : invert theta k u ≤ 1 := by
        unfold invert
        split_ifs
        · decide
        · decide
        · linarith
      refine iff_of_false (by push_cast; omega) fun hle => hsecond ?_
      exact hshare.trans (mul_le_mul_of_nonneg_right hle hz.le)

end Share

/-- **The ranks are the quantiles of the shares**, for every `theta` but `1`, whatever calls came
before. Each of the `n` ranks has draws; those of the first two are as many as in the Zipf
distribution. -/
theorem zipf_share_iff (calls : List (Call ℝ)) (n : Int32) (h1 : 1 ≤ n.toInt)
    (hn : n ≠ Int32.maxValue) (theta : ℝ) (hpos : 0 < theta) (htheta : theta ≠ 1) :
    let k := n.toInt.toNat
    (share theta k 0 = 0 ∧ share theta k k = 1 ∧
      ∀ r r', r < r' → r' ≤ k → share theta k r < share theta k r') ∧
    (share theta k 1 - share theta k 0 = 1 / zetaSum theta k ∧
      share theta k 2 - share theta k 1 = (1 / 2) ^ theta / zetaSum theta k) ∧
    ∀ u, 0 ≤ u → u < 1 → ∀ r < k,
      ((zipf rpow n theta u ((machine rpow).exec Statics.init calls)).1 = .returned r ↔
        share theta k r ≤ u ∧ u < share theta k (r + 1)) := by
  intro k
  have hk : 1 ≤ k := by omega
  refine ⟨⟨share_zero, share_last hk htheta, fun r r' h hr => share_lt htheta h hr⟩,
    ⟨by rw [share_one, share_zero, sub_zero], ?_⟩, fun u h0 hlt r hr => ?_⟩
  · rw [share_two, share_one, zetaSum_two, ← sub_div, add_sub_cancel_left]
  · have hbegin := le_invert_iff hk htheta h0 hlt hr.le
    have hend := le_invert_iff hk htheta h0 hlt (Nat.succ_le_of_lt hr)
    have hrank : rank rpow (constants rpow n theta) u = some (invert theta k u) :=
      rank_constants hn h1 h0 hlt (Or.inl htheta)
    rw [zipf_eq calls n hpos, hrank, ← hbegin, ← not_le, ← hend]
    simp only [Ret.ofRank, Ret.returned.injEq]
    push_cast
    omega

/-- Among ten ranks, after calls with other parameters, the last one begins where its share does. -/
theorem zipf_share_iff_ten :
    let calls : List (Call ℝ) := [⟨20, 1 / 3, 1 / 2⟩, ⟨10, 2, 0⟩]
    share (1 / 2) 10 10 = 1 ∧
      (zipf rpow 10 (1 / 2) (share (1 / 2) 10 9)
        ((machine rpow).exec Statics.init calls)).1 = .returned (9 : ℕ) := by
  intro calls
  obtain ⟨⟨hzero, hlast, hlt⟩, -, hiff⟩ := zipf_share_iff calls 10 (by decide) (by decide) (1 / 2)
    (by norm_num) (by norm_num)
  have hpos := hlt 0 9 (by decide) (by decide)
  have hend := hlt 9 10 (by decide) (by decide)
  exact ⟨hlast, (hiff _ (hzero.symm.trans_lt hpos).le (hend.trans_eq hlast) 9 (by decide)).mpr
    ⟨le_rfl, hend⟩⟩

end

end Zipf

end DBUtl
