import DBUtl.Lib.Lehmer
import DBUtl.Lib.Schrage
import DBUtl.RNG2
import Mathlib.Tactic.FieldSimp
import Mathlib.Tactic.NormNum

/-!
# `RNG2` is the combined generator with shuffle, and never overflows

The generator over the unbounded integers is two sequences, `x` and `y`, and a table of 32 values
of `x` from which the draws are taken (`shuffle`). `Tracks m n g` says that the fields of `g` are
those of this generator after `n` draws from the start `m`.

The steps of the code are Schrage products, so the constructor establishes `Tracks` and every
draw keeps it, without an overflow and without leaving the table, for every start an `int32_t`
can hold. Both results about runs are read off that.
-/

namespace DBUtl

namespace RNG2

/-! ## The two steps -/

theorem schrage1 : Schrage 31 IA1 IQ1 IR1 IM1 := by
  constructor <;> decide

theorem schrage2 : Schrage 31 IA2 IQ2 IR2 IM2 := by
  constructor <;> decide

/-- **A step is the modular product**, with no overflow on the way. -/
theorem lcgStep_eq {IA IQ IR IM x : ℤ} (h : Schrage 31 IA IQ IR IM) (hx : Fits 31 x) :
    lcgStep IA IQ IR IM x = some (IA * x % IM) := by
  obtain ⟨hk, hkQ, hr⟩ := Schrage.between h.Q_pos hx
  obtain ⟨hAr, hkR, hdiff⟩ := h.fits hx
  obtain ⟨-, hlo, hhi⟩ := h.difference hx
  have hM := h.M_le
  simp only [lcgStep, int32, checked_of_fits hk, checked_of_fits hkQ, checked_of_fits hr,
    checked_of_fits hAr, checked_of_fits hkR, checked_of_fits hdiff, Option.bind_eq_bind,
    Option.bind_some]
  rw [← h.corrected_eq hx]
  split_ifs with hneg
  · exact checked_of_fits ⟨by omega, by omega⟩
  · rfl

/-! ## The generator over the integers -/

/-- The first generator. -/
def seqX (m : ℤ) : ℕ → ℤ := lehmer 40014 2147483563 m

/-- The second generator. -/
def seqY (m : ℤ) : ℕ → ℤ := lehmer 40692 2147483399 m

/-- A shuffle table and the last value drawn from it. -/
structure Shuffle where
  T : ℕ → ℤ
  z : ℤ

/-- The table before the draws holds `x 9` to `x 40`, from the top down. A draw takes the entry
that the last value points at, less the next value of the second generator, and puts the next
value of the first in its place. -/
def shuffle (m : ℤ) : ℕ → Shuffle
  | 0 => ⟨fun j => seqX m (40 - j), seqX m 40⟩
  | n + 1 =>
    let s := shuffle m n
    let j := (s.z / NDIV).toNat
    let z := s.T j - seqY m (n + 1)
    ⟨Function.update s.T j (seqX m (40 + (n + 1))), if z < 1 then z + IMM1 else z⟩

theorem seqX_mem (m : ℤ) {n : ℕ} (hn : 1 ≤ n) : 0 ≤ seqX m n ∧ seqX m n < IM1 :=
  lehmer_mem (by decide) hn

theorem seqY_mem (m : ℤ) {n : ℕ} (hn : 1 ≤ n) : 0 ≤ seqY m n ∧ seqY m n < IM2 :=
  lehmer_mem (by decide) hn

/-- The table entries are residues, and so is the value that points into it. -/
structure Shuffle.Mem (s : Shuffle) : Prop where
  table : ∀ j < 32, 0 ≤ s.T j ∧ s.T j < IM1
  value : 0 ≤ s.z ∧ s.z ≤ IMM1

theorem NDIV_eq : NDIV = 67108862 := by decide

/-- The slot a value points at is a slot of the table. -/
theorem Shuffle.Mem.slot {s : Shuffle} (h : s.Mem) : 0 ≤ s.z / NDIV ∧ (s.z / NDIV).toNat < 32 := by
  have := h.value
  rw [NDIV_eq]
  simp only [IMM1, IM1] at this
  omega

/-- Subtracting a value of the second generator from a table entry, and correcting, gives a
value between `1` and `IMM1`. -/
theorem corrected_mem {t y : ℤ} (ht : 0 ≤ t ∧ t < IM1) (hy : 0 ≤ y ∧ y < IM2) :
    Fits 31 (t - y) ∧ 1 ≤ (if t - y < 1 then t - y + IMM1 else t - y) ∧
      (if t - y < 1 then t - y + IMM1 else t - y) ≤ IMM1 := by
  simp only [Fits, IMM1, IM1, IM2] at *
  split_ifs <;> omega

theorem shuffle_mem (m : ℤ) (n : ℕ) : (shuffle m n).Mem := by
  induction n with
  | zero =>
    have hz := seqX_mem m (show 1 ≤ 40 by decide)
    exact ⟨fun j hj => seqX_mem m (by omega), hz.1, Int.le_sub_one_of_lt hz.2⟩
  | succ n ih =>
    have hz := (corrected_mem (ih.table _ ih.slot.2) (seqY_mem m (Nat.succ_pos n))).2
    refine ⟨fun j hj => ?_, le_trans zero_le_one hz.1, hz.2⟩
    simp only [shuffle, Function.update_apply]
    split_ifs
    · exact seqX_mem m (by omega)
    · exact ih.table j hj

/-! ## The code tracks it -/

/-- The fields of `g` are those of the generator over the integers after `n` draws. -/
structure Tracks (m : ℤ) (n : ℕ) (g : RNG2) : Prop where
  idum : g.idum = seqX m (40 + n)
  idum2 : g.idum2 = seqY m n
  iy : g.iy = (shuffle m n).z
  iv : ∀ (j : ℕ) (hj : j < 32), g.iv[j] = (shuffle m n).T j

theorem fits_toInt (x : Int32) : Fits 31 x.toInt := ⟨x.le_toInt, x.toInt_lt⟩

theorem fits_of_mem {x M : ℤ} (hM : M ≤ 2 ^ 31) (h : 0 ≤ x ∧ x < M) : Fits 31 x :=
  ⟨by omega, by omega⟩

theorem stepIdum_seqX {m : ℤ} (hm : Fits 31 m) (n : ℕ) :
    stepIdum (seqX m n) = some (seqX m (n + 1)) := by
  refine lcgStep_eq schrage1 ?_
  rcases Nat.eq_zero_or_pos n with rfl | hn
  · exact hm
  · exact fits_of_mem (by decide) (seqX_mem m hn)

theorem stepIdum2_seqY {m : ℤ} (hm : Fits 31 m) (n : ℕ) :
    stepIdum2 (seqY m n) = some (seqY m (n + 1)) := by
  refine lcgStep_eq schrage2 ?_
  rcases Nat.eq_zero_or_pos n with rfl | hn
  · exact hm
  · exact fits_of_mem (by decide) (seqY_mem m hn)

/-- **Loading the table.** With `j` iterations to go, `i` values have been drawn; the loop ends
with slot `k < j` holding value `i + j - k`, and leaves the slots from `j` on as they are. -/
theorem load_spec {m : ℤ} (hm : Fits 31 m) (j i : ℕ) (iv : Vector ℤ NTAB) :
    ∃ iv', load j (seqX m i) iv = some (seqX m (i + j), iv') ∧
      ∀ (k : ℕ) (hk : k < 32), iv'[k] = if k < j then seqX m (i + j - k) else iv[k] := by
  induction j generalizing i iv with
  | zero => exact ⟨iv, rfl, fun k hk => by simp⟩
  | succ j ih =>
    obtain ⟨iv', hload, hiv⟩ := ih (i + 1)
      (if h : j < NTAB then iv.set j (seqX m (i + 1)) h else iv)
    refine ⟨iv', ?_, fun k hk => ?_⟩
    · simp only [load, stepIdum_seqX hm i, Option.bind_eq_bind, Option.bind_some]
      rw [hload, show i + 1 + j = i + (j + 1) by omega]
    · rw [hiv k hk, show i + 1 + j - k = i + (j + 1) - k by omega]
      rcases lt_trichotomy k j with hkj | rfl | hkj
      · rw [if_pos hkj, if_pos (by omega)]
      · rw [if_neg (lt_irrefl k), if_pos (Nat.lt_succ_self k),
          show i + (k + 1) - k = i + 1 by omega]
        simp [hk]
      · rw [if_neg (by omega), if_neg (by omega)]
        split_ifs
        · exact Vector.getElem_set_ne _ _ (by omega)
        · rfl

/-- **The constructor** establishes the correspondence. -/
theorem tracks_new (raw : Vector ℤ NTAB) (seed : Int32) :
    ∃ g, new raw seed = some g ∧ Tracks (magnitude seed).toInt 0 g := by
  have hm := fits_toInt (magnitude seed)
  obtain ⟨iv, hload, hiv⟩ := load_spec hm (NTAB + 8) 0 raw
  refine ⟨⟨seqX (magnitude seed).toInt 40, (magnitude seed).toInt, iv[0], iv⟩, ?_, ?_⟩
  · have hload' : load (NTAB + 8) (magnitude seed).toInt raw =
        some (seqX (magnitude seed).toInt 40, iv) := hload
    simp [new, hload']
  · refine ⟨rfl, rfl, ?_, fun j hj => ?_⟩
    · exact (hiv 0 (by decide)).trans (if_pos (by decide))
    · rw [hiv j hj, if_pos (Nat.lt_add_right 8 hj)]
      simp [shuffle]

/-- **A draw** keeps it, and returns the new `iy` scaled. -/
theorem tracks_rand {m : ℤ} (hm : Fits 31 m) {n : ℕ} {g : RNG2} (h : Tracks m n g) :
    ∃ g', g.rand = some (scaled g'.iy, g') ∧ Tracks m (n + 1) g' := by
  have hmem := shuffle_mem m n
  obtain ⟨hj0, hj⟩ := hmem.slot
  have hdiv : g.iy.tdiv NDIV = (shuffle m n).z / NDIV := by
    rw [h.iy, Int.tdiv_eq_ediv_of_nonneg hmem.value.1]
  have hdivfits : Fits 31 ((shuffle m n).z / NDIV) := ⟨by omega, by omega⟩
  obtain ⟨hfits, hlo, hhi⟩ :=
    corrected_mem (hmem.table _ hj) (seqY_mem m (show 1 ≤ n + 1 from Nat.succ_pos n))
  refine ⟨⟨seqX m (40 + (n + 1)), seqY m (n + 1), (shuffle m (n + 1)).z,
    g.iv.set ((shuffle m n).z / NDIV).toNat (seqX m (40 + (n + 1))) hj⟩, ?_, rfl, rfl, rfl, ?_⟩
  · simp only [rand, h.idum, h.idum2, stepIdum_seqX hm, stepIdum2_seqY hm, hdiv,
      checked_of_fits hdivfits, Option.bind_eq_bind, Option.bind_some, hj0, hj, and_self,
      dif_pos, h.iv _ hj, checked_of_fits hfits, shuffle]
    split_ifs at hlo hhi ⊢
    · rw [int32, checked_of_fits ⟨by omega, lt_of_le_of_lt hhi (by decide)⟩]
      rfl
    · rfl
  · intro j hj'
    simp only [shuffle, Function.update_apply, Vector.getElem_set, h.iv j hj']
    split_ifs <;> first | rfl | omega

/-- **A run of draws**: the draws succeed, and the state they end in is that of the generator over
the integers. -/
theorem tracks_after {raw : Vector ℤ NTAB} {seed : Int32} {g₀ : RNG2}
    (hnew : new raw seed = some g₀) (n : ℕ) :
    ∃ g, g₀.after n = some g ∧ Tracks (magnitude seed).toInt n g := by
  induction n with
  | zero =>
    obtain ⟨g, hg, h⟩ := tracks_new raw seed
    obtain rfl : g₀ = g := Option.some.inj (hnew.symm.trans hg)
    exact ⟨g₀, rfl, h⟩
  | succ n ih =>
    obtain ⟨g, hg, h⟩ := ih
    obtain ⟨g', hrand, h'⟩ := tracks_rand (fits_toInt (magnitude seed)) h
    exact ⟨g', by simp [after, hg, hrand], h'⟩

/-! ## Results about runs -/

theorem scaled_of_mem {iy : ℤ} (hlo : 1 ≤ iy) (hhi : iy ≤ IMM1) :
    scaled iy = iy / IM1 ∧ 0 < scaled iy ∧ scaled iy < 1 ∧ ¬ AM * iy > RNMX := by
  have h1 : (1 : ℚ) ≤ iy := by exact_mod_cast hlo
  have h2 : (iy : ℚ) ≤ 2147483562 := by
    have : iy ≤ 2147483562 := hhi
    exact_mod_cast this
  have hAM : AM * iy = iy / IM1 := by rw [AM, one_div_mul_eq_div]
  have hclamp : ¬ AM * iy > RNMX := by
    rw [hAM, gt_iff_lt, not_lt, RNMX, EPS, IM1]
    push_cast
    linarith
  have hscaled : scaled iy = iy / IM1 := by rw [scaled, if_neg hclamp, hAM]
  refine ⟨hscaled, ?_, ?_, hclamp⟩
  · rw [hscaled, IM1]
    push_cast
    linarith
  · rw [hscaled, IM1]
    push_cast
    linarith

/-- One more draw, after any number of draws: the value it scales is between `1` and `IMM1`. -/
theorem rand_after (raw : Vector ℤ NTAB) (seed : Int32) (n : ℕ) :
    ∃ g₀ g g', new raw seed = some g₀ ∧ g₀.after n = some g ∧ Tracks (magnitude seed).toInt n g ∧
      g.rand = some (scaled g'.iy, g') ∧ 1 ≤ g'.iy ∧ g'.iy ≤ IMM1 := by
  obtain ⟨g₀, hnew, -⟩ := tracks_new raw seed
  obtain ⟨g, hg, h⟩ := tracks_after hnew n
  obtain ⟨g', hrand, h'⟩ := tracks_rand (fits_toInt (magnitude seed)) h
  have hmem := shuffle_mem (magnitude seed).toInt n
  refine ⟨g₀, g, g', hnew, hg, h, hrand, ?_⟩
  rw [h'.iy]
  exact (corrected_mem (hmem.table _ hmem.slot.2) (seqY_mem _ (Nat.succ_pos n))).2

/-- **`RNG2` never leaves its number ranges.** For every seed and after any number of draws, the
constructor and the draws have met no overflow, the table index is in the table, and one more
draw gives `iy` between `1` and `IMM1`: the value returned is `iy / IM1`, strictly between `0`
and `1`, and is not clamped. -/
theorem rand_in_range (raw : Vector ℤ NTAB) (seed : Int32) (n : ℕ) :
    ∃ g₀ g v g', new raw seed = some g₀ ∧ g₀.after n = some g ∧ g.rand = some (v, g') ∧
      (0 ≤ g.iy.tdiv NDIV ∧ g.iy.tdiv NDIV ≤ 31) ∧ (1 ≤ g'.iy ∧ g'.iy ≤ IMM1) ∧
      v = g'.iy / IM1 ∧ (0 < v ∧ v < 1) ∧ ¬ AM * g'.iy > RNMX := by
  obtain ⟨g₀, g, g', hnew, hg, h, hrand, hiy⟩ := rand_after raw seed n
  have hmem := shuffle_mem (magnitude seed).toInt n
  have hj : 0 ≤ g.iy.tdiv NDIV ∧ g.iy.tdiv NDIV ≤ 31 := by
    rw [h.iy, Int.tdiv_eq_ediv_of_nonneg hmem.value.1]
    have := hmem.slot
    omega
  obtain ⟨hv, hpos, hlt, hclamp⟩ := scaled_of_mem hiy.1 hiy.2
  exact ⟨g₀, g, scaled g'.iy, g', hnew, hg, hrand, hj, hiy, hv, ⟨hpos, hlt⟩, hclamp⟩

/-- The negation is that of the integers, except at `INT_MIN`. -/
theorem magnitude_toInt {seed : Int32} (h : seed ≠ Int32.minValue) :
    (magnitude seed).toInt = if seed = 0 then 1 else |seed.toInt| := by
  have hmin : seed.toInt ≠ -2 ^ 31 := fun h' => h (Int32.toInt_inj.1 h')
  have hlo := seed.le_toInt
  have hhi := seed.toInt_lt
  have hneg : (-seed).toInt = -seed.toInt := by
    rw [Int32.toInt_neg]
    exact Int.bmod_eq_of_le (by omega) (by omega)
  simp only [magnitude, Int32.lt_iff_toInt_lt, Int32.toInt_zero]
  rcases lt_trichotomy 0 seed.toInt with hpos | hzero | hlt
  · have : seed ≠ 0 := by
      rintro rfl
      exact absurd hpos (by decide)
    rw [if_pos hpos, if_neg this, abs_of_pos hpos]
  · have : seed = 0 := Int32.toInt_inj.1 hzero.symm
    rw [if_neg (by omega), if_neg (by omega), if_pos this]
    rfl
  · have : seed ≠ 0 := by
      rintro rfl
      exact absurd hlt (by decide)
    rw [if_neg (by omega), if_pos hlt, if_neg this, abs_of_neg hlt, hneg]

/-- **`RNG2` is the combined generator over the unbounded integers**, for every seed but
`INT_MIN`. -/
theorem after_eq_shuffle (raw : Vector ℤ NTAB) (seed : Int32) (hseed : seed ≠ Int32.minValue)
    (n : ℕ) :
    ∃ g₀ g, new raw seed = some g₀ ∧ g₀.after n = some g ∧
      g.idum = seqX (if seed = 0 then 1 else |seed.toInt|) (40 + n) ∧
      g.iy = (shuffle (if seed = 0 then 1 else |seed.toInt|) n).z ∧
      (∀ (j : ℕ) (hj : j < 32),
        g.iv[j] = (shuffle (if seed = 0 then 1 else |seed.toInt|) n).T j) ∧
      (1 ≤ n → g.idum2 = seqY (if seed = 0 then 1 else |seed.toInt|) n) := by
  obtain ⟨g₀, hnew, -⟩ := tracks_new raw seed
  obtain ⟨g, hg, h⟩ := tracks_after hnew n
  rw [magnitude_toInt hseed] at h
  exact ⟨g₀, g, hnew, hg, h.idum, h.iy, h.iv, fun _ => h.idum2⟩

theorem after_eq_shuffle_neg_seven :
    ∃ g₀ g, new (Vector.replicate 32 0) (-7) = some g₀ ∧ g₀.after 5 = some g ∧
      g.idum = seqX (if (-7 : Int32) = 0 then 1 else |(-7 : Int32).toInt|) (40 + 5) ∧
      g.iy = (shuffle (if (-7 : Int32) = 0 then 1 else |(-7 : Int32).toInt|) 5).z ∧
      (∀ (j : ℕ) (hj : j < 32),
        g.iv[j] = (shuffle (if (-7 : Int32) = 0 then 1 else |(-7 : Int32).toInt|) 5).T j) ∧
      (1 ≤ 5 → g.idum2 = seqY (if (-7 : Int32) = 0 then 1 else |(-7 : Int32).toInt|) 5) :=
  after_eq_shuffle (Vector.replicate 32 0) (-7) (by decide) 5

end RNG2

end DBUtl
