import DBUtl.RNGFlip

/-!
# Draws over a full cycle

`RNGSmall` comes back to its counter after `2 ^ 64` draws, and on the way every word is hashed as
often as every other. So whatever is made of one draw has a frequency over the cycle, which is a
count of words.

The draws are a little too small: the largest is `1 - 2⁻²³`. Their distribution function is above
that of the uniform distribution, by no more than `2⁻²³` anywhere. That goes for `flip`, `select`
and `uniformInt` alike (`frequencies_uniform`). `gauss` adds twelve draws up; for its mean it does
not matter that they are hashed from neighbouring counters (`gauss_mean`).
-/

namespace DBUtl

/-! ## `gauss` -/

section Gauss

variable {G : Type*} [Generator ℚ G]

/-- The loop of `gauss`, with `n` iterations to go. -/
def TRNG.gaussLoop (st : Statics ℚ) : (n : ℕ) → (ans : ℚ) → G → ℚ × G
  | 0, ans, g => (ans, g)
  | n + 1, ans, g =>
    let (x, g') := Generator.rand st g
    gaussLoop st n (ans + x - 1 / 2) g'

def TRNG.gauss (mu sigma : ℚ) (st : Statics ℚ) (g : G) : ℚ × G :=
  let (ans, g') := TRNG.gaussLoop st 12 0 g
  (mu + sigma * ans / 6, g')

end Gauss

/-! ## Sums over a cycle -/

namespace RGenI

/-- The state after `i` draws. -/
def after (st : Statics ℚ) (i : ℕ) (g : RGenI) : RGenI := (fun h => (h.rand st).2)^[i] g

theorem after_eq (st : Statics ℚ) (i : ℕ) (g : RGenI) : after st i g = next^[i] g := rfl

theorem after_add (st : Statics ℚ) (i j : ℕ) (g : RGenI) :
    after st i (after st j g) = after st (i + j) g :=
  (Function.iterate_add_apply _ i j g).symm

/-- **The sum over a cycle** of what is made of one word. -/
theorem sum_rightWord {M : Type*} [AddCommMonoid M] (st : Statics ℚ) (g : RGenI) (f : U32 → M) :
    ∑ i ∈ Finset.range (2 ^ 64), f (after st i g).rightWord = 2 ^ 32 • ∑ w, f w := by
  have hbij := psdes_bijective.comp words_bijective
  simp only [after_eq, next_iterate, rightWord_eq]
  rw [FullCycle.sum_counter g.data fun d => f (psdes (words d).1 (words d).2).2]
  exact (FullCycle.sum_snd hbij f).trans (by rw [FullCycle.card_bitVec])

end RGenI

/-- How often `P` is true over a cycle from `g`, as a part of the whole. -/
def frequency (st : Statics ℚ) (g : RGenI) (P : RGenI → Bool) : ℚ :=
  ((Finset.range (2 ^ 64)).filter fun i => P (RGenI.after st i g)).card / 2 ^ 64

section Frequency

variable {st : Statics ℚ} {P : RGenI → Bool} {m : ℕ}

/-- What is true of the words below `m`. -/
theorem frequency_of_lt (hP : ∀ h : RGenI, P h = true ↔ h.rightWord.toNat < m) (g : RGenI) :
    frequency st g P = ((min m (2 ^ 32) : ℕ) : ℚ) / 2 ^ 32 := by
  have hsum := RGenI.sum_rightWord st g fun w => if w.toNat < m then 1 else 0
  rw [← Finset.card_filter, ← Finset.card_filter, FullCycle.card_toNat_lt, nsmul_eq_mul,
    Nat.cast_id] at hsum
  have hcard : ((Finset.range (2 ^ 64)).filter fun i => P (RGenI.after st i g)).card =
      2 ^ 32 * min m (2 ^ 32) := by
    simpa only [hP] using hsum
  rw [frequency, hcard]
  push_cast
  ring

/-- A count of words near `x` is a frequency near `x * unitCoeff`, for a number `x` of any field. -/
theorem frequency_near {K : Type*} [Field K] [LinearOrder K] [IsStrictOrderedRing K] {p x : K}
    (h1 : p ≤ 1) (hx : x * ((unitCoeff ℚ : ℚ) : K) = p) (hlo : x ≤ m) (hhi : m ≤ x + 1) :
    p ≤ ((min m (2 ^ 32) : ℕ) : K) / 2 ^ 32 ∧
      ((min m (2 ^ 32) : ℕ) : K) / 2 ^ 32 ≤ p + 1 / 2 ^ 23 := by
  have hcoeff : ((unitCoeff ℚ : ℚ) : K) = (1 - 1 / 2 ^ 23) / (2 ^ 32 - 1) := by
    norm_num [unitCoeff]
  rw [hcoeff] at hx
  have hmin : ((min m (2 ^ 32) : ℕ) : K) = min (m : K) (2 ^ 32) := by
    rw [Nat.cast_min, Nat.cast_pow, Nat.cast_ofNat]
  rw [hmin, le_div_iff₀ (by norm_num), div_le_iff₀ (by norm_num)]
  have hm : (0 : K) ≤ m := Nat.cast_nonneg m
  constructor
  · exact le_min (by linarith) (by linarith)
  · by_cases hp : p ≤ 1 - 1 / 2 ^ 23
    · refine (min_le_left _ _).trans ?_
      linarith
    · refine (min_le_right _ _).trans ?_
      linarith

/-- The frequencies of the uniform distribution, with the error of the largest draw. -/
def Near (p x : ℚ) : Prop := p ≤ x ∧ x ≤ p + 1 / 2 ^ 23

/-- **A comparison of the draw with `p`**, true at `p` itself. -/
theorem frequency_le {p : ℚ} (h0 : 0 ≤ p) (h1 : p ≤ 1)
    (hP : ∀ h : RGenI, P h = true ↔ (h.rightWord.toNat : ℚ) * unitCoeff ℚ ≤ p) (g : RGenI) :
    Near p (frequency st g P) := by
  have hpos := unitCoeff_pos
  have hx0 : 0 ≤ p / unitCoeff ℚ := div_nonneg h0 hpos.le
  have hlt : ∀ h : RGenI, P h = true ↔ h.rightWord.toNat < ⌊p / unitCoeff ℚ⌋₊ + 1 := by
    intro h
    rw [hP, ← le_div_iff₀ hpos, ← Nat.le_floor_iff hx0, Nat.lt_succ_iff]
  rw [Near, frequency_of_lt hlt g]
  have hx : p / unitCoeff ℚ * unitCoeff ℚ = p := div_mul_cancel₀ p hpos.ne'
  refine frequency_near h1 hx ?_ ?_
  · push_cast
    exact (Nat.lt_floor_add_one _).le
  · push_cast
    have := Nat.floor_le hx0
    linarith

/-- **A comparison with a number of any field**, false at the number itself. -/
theorem frequency_below {K : Type*} [Field K] [LinearOrder K] [IsStrictOrderedRing K]
    [FloorSemiring K] {p : K} (h0 : 0 ≤ p) (h1 : p ≤ 1)
    (hP : ∀ h : RGenI, P h = true ↔ (h.rightWord.toNat : K) * ((unitCoeff ℚ : ℚ) : K) < p)
    (g : RGenI) : p ≤ (frequency st g P : K) ∧ (frequency st g P : K) ≤ p + 1 / 2 ^ 23 := by
  have hpos : (0 : K) < ((unitCoeff ℚ : ℚ) : K) := by exact_mod_cast unitCoeff_pos
  have hx0 : 0 ≤ p / ((unitCoeff ℚ : ℚ) : K) := div_nonneg h0 hpos.le
  have hlt : ∀ h : RGenI, P h = true ↔
      h.rightWord.toNat < ⌈p / ((unitCoeff ℚ : ℚ) : K)⌉₊ := by
    intro h
    rw [hP, ← lt_div_iff₀ hpos, Nat.lt_ceil]
  have hx : p / ((unitCoeff ℚ : ℚ) : K) * ((unitCoeff ℚ : ℚ) : K) = p :=
    div_mul_cancel₀ p hpos.ne'
  have hnear := frequency_near h1 hx (Nat.le_ceil _) (Nat.ceil_lt_add_one hx0).le
  rw [frequency_of_lt hlt g]
  push_cast at hnear ⊢
  exact hnear

/-- And with a rational. -/
theorem frequency_lt {p : ℚ} (h0 : 0 ≤ p) (h1 : p ≤ 1)
    (hP : ∀ h : RGenI, P h = true ↔ (h.rightWord.toNat : ℚ) * unitCoeff ℚ < p) (g : RGenI) :
    Near p (frequency st g P) :=
  frequency_below h0 h1 hP g

theorem frequency_mono {Q : RGenI → Bool} (h : ∀ d, P d = true → Q d = true) (g : RGenI) :
    frequency st g P ≤ frequency st g Q := by
  refine div_le_div_of_nonneg_right ?_ (by norm_num)
  exact_mod_cast Finset.card_le_card (Finset.monotone_filter_right _ fun i _ => h _)

theorem frequency_mem (g : RGenI) : 0 ≤ frequency st g P ∧ frequency st g P ≤ 1 := by
  refine ⟨div_nonneg (Nat.cast_nonneg _) (by norm_num), (div_le_one (by norm_num)).2 ?_⟩
  have hcard := (Finset.card_filter_le (Finset.range (2 ^ 64))
    fun i => P (RGenI.after st i g)).trans_eq (Finset.card_range _)
  exact_mod_cast hcard

/-- **A comparison with an error**, which the draw decides wherever it is farther than `e` from
`p`. -/
theorem frequency_of_error {p e : ℚ} (h0 : 0 ≤ p) (h1 : p ≤ 1) (he : 0 ≤ e)
    (hlo : ∀ h : RGenI, (h.rightWord.toNat : ℚ) * unitCoeff ℚ < p - e → P h = true)
    (hhi : ∀ h : RGenI, P h = true → (h.rightWord.toNat : ℚ) * unitCoeff ℚ ≤ p + e) (g : RGenI) :
    p - e ≤ frequency st g P ∧ frequency st g P ≤ p + e + 1 / 2 ^ 23 := by
  constructor
  · rcases le_or_gt (p - e) 0 with hneg | hpos
    · exact hneg.trans (frequency_mem g).1
    · have hnear : Near (p - e) (frequency st g fun h =>
          decide ((h.rightWord.toNat : ℚ) * unitCoeff ℚ < p - e)) :=
        frequency_lt hpos.le (by linarith) (fun h => decide_eq_true_iff) g
      exact hnear.1.trans (frequency_mono (fun h hh => hlo h (of_decide_eq_true hh)) g)
  · rcases le_or_gt 1 (p + e) with hbig | hsmall
    · exact (frequency_mem g).2.trans (by linarith)
    · have hnear : Near (p + e) (frequency st g fun h =>
          decide ((h.rightWord.toNat : ℚ) * unitCoeff ℚ ≤ p + e)) :=
        frequency_le (by linarith) hsmall.le (fun h => decide_eq_true_iff) g
      exact (frequency_mono (fun h hh => decide_eq_true (hhi h hh)) g).trans hnear.2

end Frequency

/-- `select` returns a number below `k`. -/
def TRNG.selectsBelow (n : U32) (k : ℕ) (st : Statics ℚ) (h : RGenI) : Bool :=
  match TRNG.select n st h with
  | some (r, _) => r.toNat < k
  | none => false

def TRNG.uniformIntBelow (minValue limitValue : Int32) (m : ℤ) (st : Statics ℚ) (h : RGenI) :
    Bool :=
  match TRNG.uniformInt minValue limitValue st h with
  | some (r, _) => r.toInt < m
  | none => false

/-- **Over a full cycle the draws are uniform**, up to `2⁻²³`, from any state. -/
theorem frequencies_uniform (st : Statics ℚ) (hst : st.coeff = unitCoeff ℚ) (g : RGenI) :
    (∀ p, 0 ≤ p → p ≤ 1 → Near p (frequency st g fun h => (TRNG.flip p st h).1)) ∧
    (∀ n : U32, 0 < n.toNat → ∀ k ≤ n.toNat,
      Near ((k : ℚ) / n.toNat) (frequency st g (TRNG.selectsBelow n k st))) ∧
    ∀ minValue limitValue : Int32, minValue < limitValue → ∀ m : ℤ, minValue.toInt ≤ m →
      m ≤ limitValue.toInt →
      Near (((m - minValue.toInt : ℤ) : ℚ) / ((limitValue.toInt - minValue.toInt : ℤ) : ℚ))
        (frequency st g (TRNG.uniformIntBelow minValue limitValue m st)) := by
  have hrand (h : RGenI) : (Generator.rand st h).1 = (h.rightWord.toNat : ℚ) * unitCoeff ℚ := by
    rw [← hst]
    rfl
  have hdraw (h : RGenI) : 0 ≤ (h.rightWord.toNat : ℚ) * unitCoeff ℚ ∧
      (h.rightWord.toNat : ℚ) * unitCoeff ℚ < 1 := by
    rw [← hst]
    exact toUnitReal_mem hst h.rightWord
  refine ⟨fun p h0 h1 => frequency_le h0 h1 (fun h => ?_) g, fun n hn k hk => ?_,
    fun minValue limitValue hlt m hlo hhi => ?_⟩
  · rw [← hrand h]
    exact decide_eq_true_iff
  · have hnpos : (0 : ℚ) < n.toNat := by exact_mod_cast hn
    have hk1 : (k : ℚ) / n.toNat ≤ 1 := by
      rw [div_le_one hnpos]
      exact_mod_cast hk
    refine frequency_lt (by positivity) hk1 (fun h => ?_) g
    obtain ⟨r, hr, hfloor, -⟩ := selectFrom_spec hn (hdraw h).1 (hdraw h).2
    rw [← hrand h] at hr
    have hselect : TRNG.select n st h = some (r, (Generator.rand st h).2) :=
      congrArg (Option.map _) hr
    rw [TRNG.selectsBelow, hselect, decide_eq_true_iff, lt_div_iff₀ hnpos, mul_comm,
      ← Nat.cast_lt (α := ℤ), hfloor, Int.floor_lt, Int.cast_natCast]
  · have hwidth := toNat_limit_sub hlt
    have hlt' := Int32.lt_iff_toInt_lt.1 hlt
    rw [← hwidth]
    generalize hn : (limitValue - minValue).toBitVec = n at hwidth
    have hnpos : (0 : ℚ) < n.toNat := by exact_mod_cast (show 0 < n.toNat by omega)
    have h0 : (0 : ℚ) ≤ ((m - minValue.toInt : ℤ) : ℚ) := by exact_mod_cast sub_nonneg.2 hlo
    have h1 : ((m - minValue.toInt : ℤ) : ℚ) / ((n.toNat : ℤ) : ℚ) ≤ 1 := by
      rw [Int.cast_natCast, div_le_one hnpos]
      exact_mod_cast (show m - minValue.toInt ≤ n.toNat by omega)
    refine frequency_lt (div_nonneg h0 (by positivity)) h1 (fun h => ?_) g
    obtain ⟨r, hr, hfloor, hrn⟩ := selectFrom_spec (n := n) (by omega) (hdraw h).1 (hdraw h).2
    rw [← hrand h] at hr
    have hsum := toInt_min_add (r := r) (show _ < limitValue.toInt - minValue.toInt by omega)
    have huniform : TRNG.uniformInt minValue limitValue st h =
        some (Int32.ofBitVec (minValue.toBitVec + r), (Generator.rand st h).2) := by
      have hfrom : uniformIntFrom minValue limitValue (Generator.rand st h).1 =
          some (Int32.ofBitVec (minValue.toBitVec + r)) := by
        rw [uniformIntFrom, hn, hr]
        rfl
      exact congrArg (Option.map _) hfrom
    rw [TRNG.uniformIntBelow, huniform, decide_eq_true_iff, hsum, Int.cast_natCast,
      lt_div_iff₀ hnpos, mul_comm, ← lt_sub_iff_add_lt', hfloor, Int.floor_lt]

/-- A fair flip, and a die. -/
theorem frequencies_uniform_fair :
    let st : Statics ℚ := (RGenI.new ⟨0, 0⟩).1
    let g := (RGenI.new st).2
    Near (1 / 2) (frequency st g fun h => (TRNG.flip (1 / 2) st h).1) ∧
      Near ((5 : ℕ) / (6 : ℕ)) (frequency st g (TRNG.selectsBelow 6 5 st)) := by
  intro st g
  obtain ⟨hflip, hselect, -⟩ := frequencies_uniform st rfl g
  exact ⟨hflip (1 / 2) (by norm_num) (by norm_num), hselect 6 (by decide) 5 (by decide)⟩

/-! ## The mean of `gauss` -/

/-- Twelve draws, each less one half. -/
theorem TRNG.gaussLoop_eq (st : Statics ℚ) (n : ℕ) (ans : ℚ) (g : RGenI) :
    TRNG.gaussLoop st n ans g =
      (ans + ∑ j ∈ Finset.range n, ((RGenI.after st j g).value st - 1 / 2),
        RGenI.after st n g) := by
  induction n generalizing ans g with
  | zero => simp [TRNG.gaussLoop, RGenI.after]
  | succ n ih =>
    have hstep : TRNG.gaussLoop st (n + 1) ans g =
        TRNG.gaussLoop st n (ans + g.value st - 1 / 2) (RGenI.after st 1 g) := rfl
    have hshift (j : ℕ) : RGenI.after st j (RGenI.after st 1 g) = RGenI.after st (j + 1) g :=
      RGenI.after_add st j 1 g
    rw [hstep, ih, Finset.sum_range_succ']
    simp only [hshift]
    congr 1
    have hzero : RGenI.after st 0 g = g := rfl
    rw [hzero]
    ring

/-- The sum in `gauss`. -/
def twelve (st : Statics ℚ) (g : RGenI) : ℚ :=
  ∑ j ∈ Finset.range 12, ((RGenI.after st j g).value st - 1 / 2)

theorem TRNG.gauss_eq (mu sigma : ℚ) (st : Statics ℚ) (g : RGenI) :
    TRNG.gauss mu sigma st g = (mu + sigma * twelve st g / 6, RGenI.after st 12 g) := by
  rw [TRNG.gauss, TRNG.gaussLoop_eq, zero_add]
  rfl

theorem sum_range_cast (n : ℕ) : ∑ i ∈ Finset.range n, (i : ℚ) = n * (n - 1) / 2 := by
  induction n with
  | zero => simp
  | succ n ih =>
    rw [Finset.sum_range_succ, ih]
    push_cast
    ring

/-- **The mean of a draw** over a cycle. -/
theorem sum_value {st : Statics ℚ} (hst : st.coeff = unitCoeff ℚ) (g : RGenI) :
    ∑ i ∈ Finset.range (2 ^ 64), (RGenI.after st i g).value st =
      2 ^ 64 * (1 / 2 - 1 / 2 ^ 24) := by
  have hsum := RGenI.sum_rightWord st g fun w => (w.toNat : ℚ) * unitCoeff ℚ
  have hwords : ∑ w : U32, (w.toNat : ℚ) * unitCoeff ℚ =
      ((2 ^ 32 : ℕ) : ℚ) * ((2 ^ 32 : ℕ) - 1) / 2 * unitCoeff ℚ := by
    rw [FullCycle.sum_toNat 32 fun i => (i : ℚ) * unitCoeff ℚ, ← Finset.sum_mul, sum_range_cast]
  have hvalue (h : RGenI) : h.value st = (h.rightWord.toNat : ℚ) * unitCoeff ℚ := by
    rw [← hst]
    rfl
  simp only [hvalue]
  rw [hsum, hwords, nsmul_eq_mul]
  norm_num [unitCoeff]

/-- Twelve draws stay within their mean. -/
theorem abs_gauss_sub_le {st : Statics ℚ} (hst : st.coeff = unitCoeff ℚ) (mu : ℚ) {sigma : ℚ}
    (hsigma : 0 ≤ sigma) (g : RGenI) : |(TRNG.gauss mu sigma st g).1 - mu| ≤ sigma := by
  have hterm (h : RGenI) : |h.value st - 1 / 2| ≤ 1 / 2 := by
    obtain ⟨h0, h1⟩ : 0 ≤ h.value st ∧ h.value st < 1 := toUnitReal_mem hst h.rightWord
    rw [abs_le]
    constructor <;> linarith
  have hsum : |twelve st g| ≤ 6 := by
    calc |twelve st g| ≤ ∑ j ∈ Finset.range 12, |(RGenI.after st j g).value st - 1 / 2| :=
          Finset.abs_sum_le_sum_abs _ _
      _ ≤ ∑ _j ∈ Finset.range 12, (1 / 2 : ℚ) := Finset.sum_le_sum fun j _ => hterm _
      _ = 6 := by norm_num
  have hscale : mu + sigma * twelve st g / 6 - mu = sigma / 6 * twelve st g := by ring
  rw [TRNG.gauss_eq, hscale, abs_mul, abs_of_nonneg (by positivity)]
  calc sigma / 6 * |twelve st g| ≤ sigma / 6 * 6 := mul_le_mul_of_nonneg_left hsum (by positivity)
    _ = sigma := by ring

/-- The sum over a cycle of the sum in `gauss`: twelve cycles, one for each draw. -/
theorem sum_twelve {st : Statics ℚ} (hst : st.coeff = unitCoeff ℚ) (g : RGenI) :
    ∑ i ∈ Finset.range (2 ^ 64), twelve st (RGenI.after st i g) = -12 * 2 ^ 40 := by
  have hshift (i j : ℕ) : RGenI.after st j (RGenI.after st i g) =
      RGenI.after st i (RGenI.after st j g) := by
    rw [RGenI.after_add, RGenI.after_add, Nat.add_comm]
  simp only [twelve, hshift]
  rw [Finset.sum_comm]
  simp only [Finset.sum_sub_distrib, sum_value hst, Finset.sum_const, Finset.card_range]
  norm_num

/-- The mean over a cycle is that of `twelve`, moved and scaled. -/
theorem sum_gauss {st : Statics ℚ} (hst : st.coeff = unitCoeff ℚ) (mu sigma : ℚ) (g : RGenI) :
    (∑ i ∈ Finset.range (2 ^ 64), (TRNG.gauss mu sigma st (RGenI.after st i g)).1) / 2 ^ 64 =
      mu - sigma / 2 ^ 23 := by
  simp only [TRNG.gauss_eq, mul_div_right_comm sigma]
  rw [Finset.sum_add_distrib, Finset.sum_const, Finset.card_range, ← Finset.mul_sum,
    sum_twelve hst, nsmul_eq_mul]
  push_cast
  ring

/-- **`gauss` in exact arithmetic** takes twelve draws, stays within `sigma` of `mu`, and has the
mean `mu` over a cycle, but for `sigma / 2 ^ 23`. -/
theorem gauss_mean (st : Statics ℚ) (hst : st.coeff = unitCoeff ℚ) (mu sigma : ℚ) (g : RGenI) :
    (∀ h, (TRNG.gauss mu sigma st h).2 = RGenI.after st 12 h) ∧
      (0 ≤ sigma → ∀ h : RGenI, |(TRNG.gauss mu sigma st h).1 - mu| ≤ sigma) ∧
      (∑ i ∈ Finset.range (2 ^ 64), (TRNG.gauss mu sigma st (RGenI.after st i g)).1) / 2 ^ 64 =
        mu - sigma / 2 ^ 23 :=
  ⟨fun h => by rw [TRNG.gauss_eq], fun h0 h => abs_gauss_sub_le hst mu h0 h,
    sum_gauss hst mu sigma g⟩

theorem gauss_mean_standard :
    let st : Statics ℚ := (RGenI.new ⟨0, 0⟩).1
    let g := (RGenI.new st).2
    (∑ i ∈ Finset.range (2 ^ 64), (TRNG.gauss 0 1 st (RGenI.after st i g)).1) / 2 ^ 64 =
      0 - 1 / 2 ^ 23 := by
  intro st g
  exact (gauss_mean st rfl 0 1 g).2.2

end DBUtl
