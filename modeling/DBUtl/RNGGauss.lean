import DBUtl.RNG2Double
import DBUtl.RNGCycleDouble

/-!
# `gauss` in floating point

`gauss` adds up twelve draws, each less one half, and scales the sum. `TRNG` and `RNG2` have the
same text over different generators, and it is modelled once, over any `rand`.

After `k` draws the accumulator is between `-k / 2` and `k / 2`: these are numbers of the format,
which rounding does not cross (`step_near`). So every addition has a small error, and they add up
(`foldl_near`). The scaling rounds three times more. For `mu` and `sigma` that are neither so large
nor so small that a product with `sigma` leaves the range of `double`, the arithmetic here is that
of the machine.

* `gauss_sound` — `gauss` against the exact formula, in every reachable state.
* `gauss_mean_near` — and its mean over a full cycle.
-/

namespace DBUtl

namespace IEEE

/-! ## The methods -/

section Methods

variable {m : Type → Type} [Monad m]

/-- `0.5`. -/
def half : F64 := Binary.round 53 (1 / 2)

/-- `ans + (rand()) - 0.5`. -/
def step (ans x : F64) : F64 := ans + x - half

/-- The loop of `gauss`, with `n` iterations to go. -/
def gaussLoop (rand : m F64) : (n : ℕ) → (ans : F64) → m F64
  | 0, ans => pure ans
  | n + 1, ans => do
    let x ← rand
    gaussLoop rand n (step ans x)

/-- `mu + sigma*ans/6.0`. -/
def scale (mu sigma ans : F64) : F64 := mu + sigma * ans / ((6 : ℕ) : F64)

/-- The body of `gauss`. -/
def gaussWith (rand : m F64) (mu sigma : F64) : m F64 := do
  let ans ← gaussLoop rand 12 ((0 : ℕ) : F64)
  pure (scale mu sigma ans)

/-- `gauss` of `TRNG`. -/
def gauss {G : Type} [Generator F64 G] (mu sigma : F64) (st : Statics F64) : G → F64 × G :=
  gaussWith (m := StateM G) (Generator.rand st) mu sigma

end Methods

end IEEE

/-- `gauss` of `RNG2`. -/
def RNG2.IEEE.gauss (mu sigma : F64) : RNG2 → Option (F64 × RNG2) :=
  DBUtl.IEEE.gaussWith (m := StateT RNG2 Option) RNG2.IEEE.rand mu sigma

namespace IEEE

/-! ## The sum of twelve draws -/

section Sum

/-- `x` is in the unit interval, as every draw is. -/
def InUnit (x : F64) : Prop := 0 ≤ x.val ∧ x.val ≤ 1

theorem half_val : half.val = 1 / 2 := nearest64.eq_self ⟨1, -1, by norm_num, by norm_num⟩

/-- Halves of integers are numbers of the format, which rounding does not cross. -/
theorem round_between {a b : ℤ} (ha : |a| ≤ 2 ^ 53) (hb : |b| ≤ 2 ^ 53) {y : ℚ}
    (hlo : (a : ℚ) / 2 ≤ y) (hhi : y ≤ (b : ℚ) / 2) :
    (a : ℚ) / 2 ≤ binaryRound 53 y ∧ binaryRound 53 y ≤ (b : ℚ) / 2 :=
  ⟨nearest64.ge_of_ge ⟨a, -1, ha, by rw [zpow_neg_one, div_eq_mul_inv]⟩ hlo,
    nearest64.le_of_le ⟨b, -1, hb, by rw [zpow_neg_one, div_eq_mul_inv]⟩ hhi⟩

/-- **One addition.** -/
theorem step_near (k : ℕ) (hk : k < 12) (ans x : F64) (hans : |ans.val| ≤ k / 2) (hx : InUnit x) :
    |(step ans x).val| ≤ ((k + 1 : ℕ) : ℚ) / 2 ∧
      |(step ans x).val - (ans.val + (x.val - 1 / 2))| ≤ 13 / 2 ^ 53 := by
  obtain ⟨h0, h1⟩ := hx
  obtain ⟨hlo, hhi⟩ := abs_le.1 hans
  have hk' : (k : ℚ) ≤ 11 := by exact_mod_cast Nat.le_of_lt_succ hk
  have hsum : (step ans x).val = binaryRound 53 (binaryRound 53 (ans.val + x.val) - 1 / 2) := by
    rw [step, Binary.sub_val, Binary.add_val, half_val]
  rw [hsum]
  generalize hy : binaryRound 53 (ans.val + x.val) = y
  obtain ⟨hlo₁, hhi₁⟩ : ((-k : ℤ) : ℚ) / 2 ≤ y ∧ y ≤ ((k + 2 : ℤ) : ℚ) / 2 := by
    rw [← hy]
    refine round_between (by grind) (by grind) ?_ ?_
    · push_cast
      linarith
    · push_cast
      linarith
  push_cast at hlo₁ hhi₁
  obtain ⟨hlo₂, hhi₂⟩ : ((-(k + 1) : ℤ) : ℚ) / 2 ≤ binaryRound 53 (y - 1 / 2) ∧
      binaryRound 53 (y - 1 / 2) ≤ ((k + 1 : ℤ) : ℚ) / 2 := by
    refine round_between (by grind) (by grind) ?_ ?_
    · push_cast
      linarith
    · push_cast
      linarith
  push_cast at hlo₂ hhi₂ ⊢
  have herr₁ : |y - (ans.val + x.val)| ≤ 13 / 2 / 2 ^ 53 := by
    rw [← hy]
    refine abs_binaryRound_sub_le_of_le (abs_le.2 ⟨?_, ?_⟩) <;> linarith
  have herr₂ : |binaryRound 53 (y - 1 / 2) - (y - 1 / 2)| ≤ 13 / 2 / 2 ^ 53 :=
    abs_binaryRound_sub_le_of_le (abs_le.2 ⟨by linarith, by linarith⟩)
  rw [abs_le] at herr₁ herr₂
  constructor
  · rw [abs_le]
    constructor <;> linarith
  · rw [abs_le]
    constructor <;> linarith

/-- The exact sum. -/
def exactSum (xs : List F64) : ℚ := (xs.map fun x => x.val - 1 / 2).sum

/-- **The sum of twelve draws.** -/
theorem sum_near {xs : List F64} (hlen : xs.length = 12) (hxs : ∀ x ∈ xs, InUnit x) :
    |(xs.foldl step ((0 : ℕ) : F64)).val| ≤ 6 ∧
      |(xs.foldl step ((0 : ℕ) : F64)).val - exactSum xs| ≤ 12 * (13 / 2 ^ 53) := by
  have hzero : (((0 : ℕ) : F64)).val = 0 := by
    rw [Binary.natCast_val (by decide) (by decide), Nat.cast_zero]
  obtain ⟨hle, hnear⟩ := foldl_near (I := fun k (ans : F64) => |ans.val| ≤ (k : ℚ) / 2)
    (b := ((0 : ℕ) : F64)) (k := 0) step_near hxs (by omega) (by simp [hzero])
  rw [hlen] at hle hnear
  rw [hzero, zero_add] at hnear
  norm_num at hle
  exact ⟨hle, by exact_mod_cast hnear⟩

/-- **The scaling.** It rounds three times. -/
theorem scale_near (mu sigma : F64) {ans : F64} (hans : |ans.val| ≤ 6) :
    |(scale mu sigma ans).val - (mu.val + sigma.val * ans.val / 6)| ≤
      |mu.val| / 2 ^ 53 + |sigma.val| * (4 / 2 ^ 53) := by
  have hsix : (((6 : ℕ) : F64)).val = 6 := by
    rw [Binary.natCast_val (by decide) (by decide), Nat.cast_ofNat]
  have hscale : (scale mu sigma ans).val =
      binaryRound 53 (mu.val + binaryRound 53 (binaryRound 53 (sigma.val * ans.val) / 6)) := by
    rw [scale, Binary.add_val, Binary.div_val, Binary.mul_val, hsix]
  rw [hscale]
  have hs : 0 ≤ |sigma.val| := abs_nonneg _
  have hprod : |sigma.val * ans.val| ≤ |sigma.val| * 6 := by
    rw [abs_mul]
    exact mul_le_mul_of_nonneg_left hans hs
  have herr₁ := abs_binaryRound_sub_le_of_le (p := 53) hprod
  have hle₁ := abs_binaryRound_le 53 (sigma.val * ans.val)
  generalize binaryRound 53 (sigma.val * ans.val) = a at herr₁ hle₁ ⊢
  have hquot : |a / 6| ≤ |sigma.val| * (1 + 1 / 2 ^ 53) := by
    rw [abs_div, abs_of_pos (show (0 : ℚ) < 6 by norm_num), div_le_iff₀ (by norm_num)]
    linarith
  have herr₂ := abs_binaryRound_sub_le_of_le (p := 53) hquot
  have hle₂ := abs_binaryRound_le 53 (a / 6)
  generalize binaryRound 53 (a / 6) = b at herr₂ hle₂ ⊢
  have hsum : |mu.val + b| ≤ |mu.val| + |sigma.val| * (3 / 2) := by
    refine (abs_add_le _ _).trans ?_
    norm_num at hle₂ hquot ⊢
    linarith
  have herr₃ := abs_binaryRound_sub_le_of_le (p := 53) hsum
  rw [abs_le] at herr₁ herr₂ herr₃ ⊢
  norm_num at herr₁ herr₂ herr₃ ⊢
  constructor <;> linarith

/-- How far rounding takes `gauss`. -/
def slack (mu sigma : F64) : ℚ := |mu.val| / 2 ^ 53 + |sigma.val| / 2 ^ 48

/-- `r` is what the exact formula makes of the twelve draws `xs`, but for rounding. -/
structure GaussOf (mu sigma : F64) (xs : List F64) (r : F64) : Prop where
  length : xs.length = 12
  draws : ∀ x ∈ xs, InUnit x
  near : |r.val - (mu.val + sigma.val * exactSum xs / 6)| ≤ slack mu sigma
  within : |r.val - mu.val| ≤ |sigma.val| + slack mu sigma

theorem abs_exactSum_le {xs : List F64} (hxs : ∀ x ∈ xs, InUnit x) :
    |exactSum xs| ≤ xs.length / 2 := by
  induction xs with
  | nil => simp [exactSum]
  | cons x xs ih =>
    rw [List.forall_mem_cons] at hxs
    obtain ⟨⟨h0, h1⟩, hxs⟩ := hxs
    have hle := abs_le.1 (ih hxs)
    have hcons : exactSum (x :: xs) = x.val - 1 / 2 + exactSum xs := rfl
    rw [hcons, List.length_cons, Nat.cast_succ, abs_le]
    constructor <;> linarith [hle.1, hle.2]

/-- An error of the sum, scaled. -/
theorem abs_scaled_sub_le (s : ℚ) {x y e : ℚ} (h : |x - y| ≤ e) :
    |s * x / 6 - s * y / 6| ≤ |s| * (e / 6) := by
  rw [← sub_div, ← mul_sub, abs_div, abs_mul, abs_of_pos (show (0 : ℚ) < 6 by norm_num), mul_div]
  exact div_le_div_of_nonneg_right (mul_le_mul_of_nonneg_left h (abs_nonneg s)) (by norm_num)

theorem gaussOf (mu sigma : F64) {xs : List F64} (hlen : xs.length = 12)
    (hxs : ∀ x ∈ xs, InUnit x) :
    GaussOf mu sigma xs (scale mu sigma (xs.foldl step ((0 : ℕ) : F64))) := by
  obtain ⟨hans, hsum⟩ := sum_near hlen hxs
  have hscale := scale_near mu sigma hans
  generalize scale mu sigma (xs.foldl step ((0 : ℕ) : F64)) = r at hscale ⊢
  generalize (xs.foldl step ((0 : ℕ) : F64)).val = ans at hsum hscale
  have hprod := abs_scaled_sub_le sigma.val hsum
  have hs : 0 ≤ |sigma.val| := abs_nonneg _
  have hnear : |r.val - (mu.val + sigma.val * exactSum xs / 6)| ≤ slack mu sigma := by
    rw [slack]
    rw [abs_le] at hscale hprod ⊢
    norm_num at hscale hprod ⊢
    constructor <;> linarith
  have hmost : |sigma.val * exactSum xs / 6| ≤ |sigma.val| := by
    have hle := abs_exactSum_le hxs
    rw [hlen] at hle
    rw [← sub_zero (exactSum xs)] at hle
    have hscaled := abs_scaled_sub_le sigma.val hle
    norm_num at hscaled
    exact hscaled
  refine ⟨hlen, hxs, hnear, ?_⟩
  rw [abs_le] at hnear hmost ⊢
  constructor <;> linarith [hnear.1, hnear.2, hmost.1, hmost.2]

end Sum

/-! ## What is drawn -/

section Draws

/-- The next `n` answers of `rand`. -/
def answers {m : Type → Type} [Monad m] (rand : m F64) : (n : ℕ) → m (List F64)
  | 0 => pure []
  | n + 1 => do
    let x ← rand
    let xs ← answers rand n
    pure (x :: xs)

theorem gaussLoop_eq {m : Type → Type} [Monad m] [LawfulMonad m] (rand : m F64) (n : ℕ)
    (ans : F64) :
    gaussLoop rand n ans = (fun xs => xs.foldl step ans) <$> answers rand n := by
  induction n generalizing ans with
  | zero => simp [gaussLoop, answers]
  | succ n ih => simp [gaussLoop, answers, ih]

/-- **`gauss` is a function of the next twelve draws.** -/
theorem gaussWith_eq {m : Type → Type} [Monad m] [LawfulMonad m] (rand : m F64) (mu sigma : F64) :
    gaussWith rand mu sigma =
      (fun xs => scale mu sigma (xs.foldl step ((0 : ℕ) : F64))) <$> answers rand 12 := by
  simp [gaussWith, gaussLoop_eq]

variable {G : Type} [Generator F64 G]

theorem gauss_eq (mu sigma : F64) (st : Statics F64) (g : G) :
    gauss mu sigma st g =
      (scale mu sigma ((answers (m := StateM G) (Generator.rand st) 12 g).1.foldl step
        ((0 : ℕ) : F64)), (answers (m := StateM G) (Generator.rand st) 12 g).2) := by
  rw [gauss, gaussWith_eq]
  rfl

/-- The answers are those of the machine. -/
theorem answers_eq (s : Statics F64 × G) (n : ℕ) :
    (TRNG F64 G).trace s (List.replicate n .rand) =
        (answers (m := StateM G) (Generator.rand s.1) n s.2).1.map .real ∧
      (TRNG F64 G).exec s (List.replicate n .rand) =
        (s.1, (answers (m := StateM G) (Generator.rand s.1) n s.2).2) := by
  induction n generalizing s with
  | zero => exact ⟨rfl, rfl⟩
  | succ n ih =>
    obtain ⟨htrace, hexec⟩ := ih (s.1, (Generator.rand s.1 s.2).2)
    exact ⟨congrArg (Ret.real (Generator.rand s.1 s.2).1 :: ·) htrace, hexec⟩

/-- If every draw of every run from `s` is in the unit interval, so are the next ones. -/
theorem answers_mem {s : Statics F64 × G}
    (h : ∀ calls, InUnit (Generator.rand ((TRNG F64 G).exec s calls).1
      ((TRNG F64 G).exec s calls).2).1) (n : ℕ) :
    (answers (m := StateM G) (Generator.rand s.1) n s.2).1.length = n ∧
      ∀ x ∈ (answers (m := StateM G) (Generator.rand s.1) n s.2).1, InUnit x := by
  induction n generalizing s with
  | zero => exact ⟨rfl, fun x hx => absurd hx List.not_mem_nil⟩
  | succ n ih =>
    obtain ⟨hlen, hmem⟩ := ih (s := (s.1, (Generator.rand s.1 s.2).2))
      fun calls => h (.rand :: calls)
    refine ⟨congrArg (· + 1) hlen, ?_⟩
    exact List.forall_mem_cons.2 ⟨h [], hmem⟩

/-- The same of `RNG2`, which after every draw can draw again. -/
theorem answers_after {raw : Vector ℤ RNG2.NTAB} {seed : Int32} {g₀ : RNG2}
    (hnew : RNG2.new raw seed = some g₀) (k : ℕ) : ∀ {n : ℕ} {g : RNG2}, g₀.after n = some g →
      ∃ xs g', answers (m := StateT RNG2 Option) RNG2.IEEE.rand k g = some (xs, g') ∧
        g₀.after (n + k) = some g' ∧ xs.length = k ∧ ∀ x ∈ xs, InUnit x := by
  induction k with
  | zero => exact fun hg => ⟨[], _, rfl, hg, rfl, fun x hx => absurd hx List.not_mem_nil⟩
  | succ k ih =>
    intro n g hg
    obtain ⟨g₁, g₂, g', hnew', hg₂, -, hdraw, hlo, hhi⟩ := RNG2.rand_after raw seed n
    obtain rfl : g₀ = g₁ := Option.some.inj (hnew.symm.trans hnew')
    obtain rfl : g = g₂ := Option.some.inj (hg.symm.trans hg₂)
    obtain ⟨-, hge, hle⟩ := RNG2.IEEE.scaled_mem hlo hhi
    have hrand : RNG2.IEEE.rand g = some (RNG2.IEEE.scaled g'.iy, g') := by
      rw [RNG2.IEEE.rand, hdraw, Option.map_some]
    have hafter : g₀.after (n + 1) = some g' := by simp [RNG2.after, hg, hdraw]
    obtain ⟨xs, t, hxs, ht, hlen, hmem⟩ := ih hafter
    refine ⟨RNG2.IEEE.scaled g'.iy :: xs, t, ?_, ?_, congrArg (· + 1) hlen,
      List.forall_mem_cons.2 ⟨⟨le_trans (by norm_num) hge, hle.trans (by norm_num)⟩, hmem⟩⟩
    · have hanswers : answers (m := StateT RNG2 Option) RNG2.IEEE.rand (k + 1) g =
          (RNG2.IEEE.rand g).bind fun a =>
            (answers (m := StateT RNG2 Option) RNG2.IEEE.rand k a.2).bind fun b =>
              some (a.1 :: b.1, b.2) := rfl
      rw [hanswers, hrand, Option.bind_some, hxs, Option.bind_some]
    · rw [← ht, Nat.add_right_comm, Nat.add_assoc]

end Draws

/-! ## The results -/

/-- In the state `s`, `gauss` takes the next twelve answers of `rand`. -/
def Gaussian {G : Type} [Generator F64 G] (mu sigma : F64) (s : Statics F64 × G) : Prop :=
  ∃ xs r g', (TRNG F64 G).trace s (List.replicate 12 .rand) = xs.map .real ∧
    (TRNG F64 G).exec s (List.replicate 12 .rand) = (s.1, g') ∧
    gauss mu sigma s.1 s.2 = (r, g') ∧ GaussOf mu sigma xs r

theorem gaussian {G : Type} [Generator F64 G] (mu sigma : F64) {s : Statics F64 × G}
    (h : ∀ calls, InUnit (Generator.rand ((TRNG F64 G).exec s calls).1
      ((TRNG F64 G).exec s calls).2).1) (calls : List Call) :
    Gaussian mu sigma ((TRNG F64 G).exec s calls) := by
  have hrest (rest : List Call) : InUnit (Generator.rand
      ((TRNG F64 G).exec ((TRNG F64 G).exec s calls) rest).1
      ((TRNG F64 G).exec ((TRNG F64 G).exec s calls) rest).2).1 := by
    rw [← Machine.exec_append]
    exact h (calls ++ rest)
  obtain ⟨htrace, hexec⟩ := answers_eq ((TRNG F64 G).exec s calls) 12
  obtain ⟨hlen, hmem⟩ := answers_mem hrest 12
  exact ⟨_, _, _, htrace, hexec, gauss_eq mu sigma _ _, gaussOf mu sigma hlen hmem⟩

/-- **`gauss` in floating point.** Of whatever generator and whatever was called before, it takes
the next twelve answers of `rand` and leaves the object where these leave it. The result is what
the exact formula makes of them but for `slack`, and so is within `sigma` of `mu` but for that. -/
theorem gauss_sound (mu sigma : F64) :
    (∀ (st : Statics F64) (calls : List Call),
      Gaussian mu sigma ((TRNG F64 RGenI).exec (RGenI.new st) calls) ∧
        Gaussian mu sigma ((TRNG F64 RGenO).exec (RGenO.new st) calls) ∧
        ∀ raw : Vector F64 RGenC.CACHE_SZ,
          Gaussian mu sigma ((TRNG F64 (RGenC F64)).exec (RGenC.new raw st) calls)) ∧
    ∀ (raw : Vector ℤ RNG2.NTAB) (seed : Int32) (n : ℕ), ∃ g₀ g xs r g',
      RNG2.new raw seed = some g₀ ∧ g₀.after n = some g ∧ g₀.after (n + 12) = some g' ∧
        answers (m := StateT RNG2 Option) RNG2.IEEE.rand 12 g = some (xs, g') ∧
        RNG2.IEEE.gauss mu sigma g = some (r, g') ∧ GaussOf mu sigma xs r := by
  have hunit {x : ℚ} (hx : x ≤ 1 - 1 / 2 ^ 23) : x ≤ 1 := hx.trans (by norm_num)
  refine ⟨fun st calls => ⟨?_, ?_, fun raw => ?_⟩, fun raw seed n => ?_⟩
  · refine gaussian mu sigma (fun calls => ?_) calls
    exact ⟨(rand_small st calls).1, hunit (rand_small st calls).2⟩
  · refine gaussian mu sigma (fun calls => ?_) calls
    exact ⟨(rand_min st calls).1, hunit (rand_min st calls).2⟩
  · refine gaussian mu sigma (fun calls => ?_) calls
    exact ⟨(rand_cache st calls raw).1, hunit (rand_cache st calls raw).2⟩
  · obtain ⟨g₀, g, -, hnew, hg, -⟩ := RNG2.rand_after raw seed n
    obtain ⟨xs, g', hxs, hafter, hlen, hmem⟩ := answers_after hnew 12 hg
    have hgauss : RNG2.IEEE.gauss mu sigma g =
        (answers (m := StateT RNG2 Option) RNG2.IEEE.rand 12 g).bind fun a =>
          some (scale mu sigma (a.1.foldl step ((0 : ℕ) : F64)), a.2) := by
      rw [RNG2.IEEE.gauss, gaussWith_eq]
      rfl
    rw [hxs, Option.bind_some] at hgauss
    exact ⟨g₀, g, xs, _, g', hnew, hg, hafter, hxs, hgauss, gaussOf mu sigma hlen hmem⟩

/-! ## The mean over a cycle -/

section Mean

/-- The statics of exact arithmetic. -/
def exactSt : Statics ℚ := ⟨unitCoeff ℚ, 0⟩

variable {st : Statics F64} (hst : st.coeff = unitCoeff F64)

include hst

/-- The next draws of the counter, against the exact ones. -/
theorem exactSum_near (n : ℕ) (h : RGenI) :
    let a := answers (m := StateM RGenI) (Generator.rand st) n h
    a.1.length = n ∧ (∀ x ∈ a.1, InUnit x) ∧
      |exactSum a.1 - ∑ j ∈ Finset.range n, ((RGenI.after exactSt j h).value exactSt - 1 / 2)| ≤
        n / 2 ^ 52 := by
  induction n generalizing h with
  | zero =>
    refine ⟨rfl, fun x hx => absurd hx List.not_mem_nil, ?_⟩
    have hnil : exactSum (answers (m := StateM RGenI) (Generator.rand st) 0 h).1 = 0 := rfl
    rw [hnil]
    simp
  | succ n ih =>
    intro a
    obtain ⟨hlen, hmem, hnear⟩ := ih (RGenI.after exactSt 1 h)
    obtain ⟨h0, h1⟩ := toUnitReal_mem hst h.rightWord
    have hshift (j : ℕ) : RGenI.after exactSt j (RGenI.after exactSt 1 h) =
        RGenI.after exactSt (j + 1) h := RGenI.after_add exactSt j 1 h
    refine ⟨congrArg (· + 1) hlen,
      List.forall_mem_cons.2 ⟨⟨h0, h1.trans (by norm_num)⟩, hmem⟩, ?_⟩
    simp only [hshift] at hnear
    have hfirst : |(RGenI.toUnitReal st h.rightWord).val -
        (RGenI.after exactSt 0 h).value exactSt| ≤ 1 / 2 ^ 52 := draw_near hst h.rightWord
    have hcons : exactSum a.1 = (RGenI.toUnitReal st h.rightWord).val - 1 / 2 +
        exactSum (answers (m := StateM RGenI) (Generator.rand st) n (RGenI.after exactSt 1 h)).1 :=
      rfl
    rw [hcons, Finset.sum_range_succ', Nat.cast_succ, add_div]
    rw [abs_le] at hfirst hnear ⊢
    constructor <;> linarith [hfirst.1, hfirst.2, hnear.1, hnear.2]

/-- **`gauss` against exact arithmetic**, from the same state. -/
theorem gauss_near_exact (mu sigma : F64) (h : RGenI) :
    |(gauss mu sigma st h).1.val - (TRNG.gauss mu.val sigma.val exactSt h).1| ≤
      |mu.val| / 2 ^ 53 + |sigma.val| / 2 ^ 47 := by
  obtain ⟨hlen, hmem, hnear⟩ := exactSum_near hst 12 h
  have hgauss := (gaussOf mu sigma hlen hmem).near
  rw [slack] at hgauss
  rw [gauss_eq, TRNG.gauss_eq]
  rw [← twelve] at hnear
  generalize exactSum _ = x at hnear hgauss
  generalize twelve exactSt h = y at hnear ⊢
  have hprod := abs_scaled_sub_le sigma.val hnear
  have hs : 0 ≤ |sigma.val| := abs_nonneg _
  rw [abs_le] at hgauss hprod ⊢
  norm_num at hgauss hprod ⊢
  constructor <;> linarith

/-- **`gauss` in floating point is `gauss` in exact arithmetic**, but for rounding: from every
state, and so in the mean over a full cycle. That goes for the `double` of the machine where no
exponent is out of range. -/
theorem gauss_mean_near (mu sigma : F64) (g : RGenI) :
    (∀ h : RGenI, |(gauss mu sigma st h).1.val - (TRNG.gauss mu.val sigma.val exactSt h).1| ≤
      |mu.val| / 2 ^ 53 + |sigma.val| / 2 ^ 47) ∧
    |(∑ i ∈ Finset.range (2 ^ 64),
        (gauss mu sigma st ((fun h : RGenI => (h.rand st).2)^[i] g)).1.val) / 2 ^ 64 -
      (mu.val - sigma.val / 2 ^ 23)| ≤ |mu.val| / 2 ^ 53 + |sigma.val| / 2 ^ 47 := by
  have hexact : exactSt.coeff = unitCoeff ℚ := rfl
  refine ⟨gauss_near_exact hst mu sigma, ?_⟩
  rw [← sum_gauss hexact mu.val sigma.val g, ← sub_div, ← Finset.sum_sub_distrib, abs_div,
    abs_of_pos (show (0 : ℚ) < 2 ^ 64 by norm_num), div_le_iff₀ (by norm_num)]
  refine (Finset.abs_sum_le_sum_abs _ _).trans ?_
  refine (Finset.sum_le_card_nsmul _ _ _ fun i _ =>
    gauss_near_exact hst mu sigma (RGenI.after exactSt i g)).trans_eq ?_
  rw [Finset.card_range, nsmul_eq_mul, mul_comm]
  norm_num

omit hst in
/-- The standard gaussian of a new object. -/
theorem gauss_mean_near_standard :
    let st : Statics F64 := ⟨unitCoeff F64, 0⟩
    let g : RGenI := ⟨RGenI.INIT_DATA⟩
    let mu : F64 := (0 : ℕ)
    let sigma : F64 := (1 : ℕ)
    |(∑ i ∈ Finset.range (2 ^ 64),
        (gauss mu sigma st ((fun h : RGenI => (h.rand st).2)^[i] g)).1.val) / 2 ^ 64 -
      (mu.val - sigma.val / 2 ^ 23)| ≤ |mu.val| / 2 ^ 53 + |sigma.val| / 2 ^ 47 := by
  intro st g mu sigma
  have hst : st.coeff = unitCoeff F64 := rfl
  exact (gauss_mean_near hst mu sigma g).2

end Mean

end IEEE

end DBUtl
