import DBUtl.Lib.Binary
import DBUtl.RNGReseed
import DBUtl.RNGSelect

/-!
# Draws in floating point

The draws of `TRNG` in the arithmetic of the machine: `double` has 53 significant bits and `float`
has 24. All numbers on the way lie between `2⁻⁸⁵` and `2³²`, or are zero, so that no exponent is out
of range.

The constructor takes the epsilon of `float` off `1`, so that the largest draw is `1 - 2⁻²³`, a
number of either type. Rounding keeps the order, so that no draw is above it, as a `double` or as a
`float`, and a product with `n` is rounded to less than `n`.

* `toUnitReal_strictMono` — as a `double`, no two words have the same draw.
* `min_draws_eq_iff`, `reseeded_draws_eq_iff` — so that sequences differ where they do in exact
  arithmetic.
* `draws_sound` — the result, for every state that a generator reaches.
-/

namespace DBUtl

abbrev F64 := Binary 53
abbrev F32 := Binary 24

instance : Double F64 where

/-! ## The methods -/

namespace IEEE

variable {G : Type*} [Generator F64 G]

/-- `(float)(g.rand())`. -/
def randf (st : Statics F64) (g : G) : F32 × G :=
  let (x, g') := Generator.rand st g
  (Binary.round 24 x.val, g')

/-- `(unsigned)(n * x)`. -/
def selectFrom (n : U32) (x : F64) : Option U32 := toUnsigned ((n.toNat : F64) * x).val

def select (n : U32) (st : Statics F64) (g : G) : Option (U32 × G) :=
  let (x, g') := Generator.rand st g
  (selectFrom n x).map (·, g')

/-- `minValue + select(limitValue - minValue)`. -/
def uniformIntFrom (minValue limitValue : Int32) (x : F64) : Option Int32 :=
  (selectFrom (limitValue - minValue).toBitVec x).map fun r =>
    Int32.ofBitVec (minValue.toBitVec + r)

def uniformInt (minValue limitValue : Int32) (st : Statics F64) (g : G) : Option (Int32 × G) :=
  let (x, g') := Generator.rand st g
  (uniformIntFrom minValue limitValue x).map (·, g')

/-! ## The coefficient -/

theorem nearest64 : Nearest {x | IsBinary 53 x} (binaryRound 53) := binaryRound_nearest (by decide)

theorem nearest32 : Nearest {x | IsBinary 24 x} (binaryRound 24) := binaryRound_nearest (by decide)

/-- What the constructor stores, to the last bit. -/
theorem unitCoeff_val : (unitCoeff F64).val = (2 ^ 32 - 2 ^ 9 + 1) / 2 ^ 64 := by
  have hone : ((1 : ℕ) : F64).val = 1 := by
    rw [Binary.natCast_val (by decide) (by decide), Nat.cast_one]
  have hpow : ((2 ^ 23 : ℕ) : F64).val = 2 ^ 23 := by
    rw [Binary.natCast_val (by decide) (by decide)]
    norm_num
  have hmax : ((2 ^ 32 - 1 : ℕ) : F64).val = 2 ^ 32 - 1 := by
    rw [Binary.natCast_val (by decide) (by decide)]
    norm_num
  have heps : (((1 : ℕ) : F64) / ((2 ^ 23 : ℕ) : F64)).val = 1 / 2 ^ 23 := by
    rw [Binary.div_val, hone, hpow]
    exact nearest64.eq_self ⟨1, -23, by norm_num, by norm_num⟩
  have hnum : (((1 : ℕ) : F64) - ((1 : ℕ) : F64) / ((2 ^ 23 : ℕ) : F64)).val = 1 - 1 / 2 ^ 23 := by
    rw [Binary.sub_val, hone, heps]
    exact nearest64.eq_self ⟨2 ^ 23 - 1, -23, by norm_num, by norm_num⟩
  rw [unitCoeff, Binary.div_val, hnum, hmax]
  have hround : roundEven ((1 - 1 / 2 ^ 23) / (2 ^ 32 - 1) / 2 ^ (-33 + 1 - (53 : ℕ) : ℤ)) =
      2 ^ 53 - 2 ^ 30 + 2 ^ 21 := by
    apply roundEven_eq
    rw [abs_lt]
    norm_num
  rw [binaryRound_eq (L := -33) (by norm_num [abs_of_pos]) (by norm_num [abs_of_pos]), hround]
  norm_num

/-! ## The draws -/

section Draws

variable {st : Statics F64}

/-- The draw of a word, rounded once. -/
theorem toUnitReal_val (hst : st.coeff = unitCoeff F64) (w : U32) :
    (RGenI.toUnitReal st w).val = binaryRound 53 (w.toNat * ((2 ^ 32 - 2 ^ 9 + 1) / 2 ^ 64)) := by
  have hw : ((w.toNat : ℕ) : F64).val = w.toNat :=
    Binary.natCast_val (by decide) (w.isLt.le.trans (by decide))
  rw [RGenI.toUnitReal, Binary.mul_val, hst, unitCoeff_val, hw]

/-- The largest word is drawn as `1 - 2⁻²³`. -/
theorem binaryRound_last :
    binaryRound 53 ((2 ^ 32 - 1) * ((2 ^ 32 - 2 ^ 9 + 1) / 2 ^ 64)) = 1 - 1 / 2 ^ 23 := by
  have hround : roundEven ((2 ^ 32 - 1) * ((2 ^ 32 - 2 ^ 9 + 1) / 2 ^ 64) /
      2 ^ (-1 + 1 - (53 : ℕ) : ℤ)) = 2 ^ 53 - 2 ^ 30 := by
    apply roundEven_eq
    rw [abs_lt]
    norm_num
  rw [binaryRound_eq (L := -1) (by norm_num [abs_of_pos]) (by norm_num [abs_of_pos]), hround]
  norm_num

theorem toUnitReal_mem (hst : st.coeff = unitCoeff F64) (w : U32) :
    0 ≤ (RGenI.toUnitReal st w).val ∧ (RGenI.toUnitReal st w).val ≤ 1 - 1 / 2 ^ 23 := by
  have hw : (w.toNat : ℚ) ≤ 2 ^ 32 - 1 := by
    have hlt : (w.toNat : ℚ) + 1 ≤ 2 ^ 32 := by exact_mod_cast w.isLt
    linarith
  rw [toUnitReal_val hst]
  constructor
  · exact nearest64.ge_of_ge ⟨0, 0, by norm_num, by norm_num⟩ (by positivity)
  · rw [← binaryRound_last]
    exact nearest64.monotone (mul_le_mul_of_nonneg_right hw (by norm_num))

/-- The draws of neighbours are much farther apart than the errors of rounding. -/
theorem toUnitReal_lt (hst : st.coeff = unitCoeff F64) {v w : U32} (hvw : v < w) :
    (RGenI.toUnitReal st v).val < (RGenI.toUnitReal st w).val := by
  rw [toUnitReal_val hst, toUnitReal_val hst]
  have hv : (v.toNat : ℚ) + 1 ≤ w.toNat := by exact_mod_cast hvw
  have hw : (w.toNat : ℚ) ≤ 4294967296 := by exact_mod_cast w.isLt.le
  have hv₀ : (0 : ℚ) ≤ v.toNat := Nat.cast_nonneg _
  have herr₁ := abs_le.mp (abs_binaryRound_sub_le 53 (v.toNat * ((2 ^ 32 - 2 ^ 9 + 1) / 2 ^ 64)))
  have herr₂ := abs_le.mp (abs_binaryRound_sub_le 53 (w.toNat * ((2 ^ 32 - 2 ^ 9 + 1) / 2 ^ 64)))
  rw [abs_of_nonneg (by positivity)] at herr₁ herr₂
  obtain ⟨-, hup⟩ := herr₁
  obtain ⟨hlo, -⟩ := herr₂
  norm_num at hup hlo ⊢
  linarith

/-- **No two words have the same draw.** The draws are in the order of the words, from `0` up to
`1 - 2⁻²³`. -/
theorem toUnitReal_strictMono (seed : U32) :
    let draw (w : U32) := (RGenI.toUnitReal (⟨unitCoeff F64, seed⟩ : Statics F64) w).val
    (∀ v w, v < w → draw v < draw w) ∧ draw 0 = 0 ∧ draw (BitVec.allOnes 32) = 1 - 1 / 2 ^ 23 := by
  have hst : (⟨unitCoeff F64, seed⟩ : Statics F64).coeff = unitCoeff F64 := rfl
  refine ⟨fun v w hvw => toUnitReal_lt hst hvw, ?_, ?_⟩
  · have hzero : (((0 : U32).toNat : ℕ) : ℚ) * ((2 ^ 32 - 2 ^ 9 + 1) / 2 ^ 64) = 0 := by norm_num
    dsimp only
    rw [toUnitReal_val hst, hzero]
    exact nearest64.eq_self ⟨0, 0, by norm_num, by norm_num⟩
  · dsimp only
    rw [toUnitReal_val hst, ← binaryRound_last]
    norm_num

theorem wordsApart_binary : WordsApart F64 := by
  intro st hst v w h
  by_contra hne
  rcases Nat.lt_or_gt_of_ne fun heq => hne (BitVec.eq_of_toNat_eq heq) with hlt | hgt
  · exact (toUnitReal_lt hst (BitVec.lt_def.2 hlt)).ne (congrArg Binary.val h)
  · exact (toUnitReal_lt hst (BitVec.lt_def.2 hgt)).ne' (congrArg Binary.val h)

end Draws

/-! ## Sequences of draws -/

/-- `RNGMin` against `RNGSmall`, in floating point. -/
theorem min_draws_eq_iff (st : Statics F64) (now s : U32) (hs : s.toNat % 2 ^ 24 ≠ 0) :
    (∀ n, (TRNG F64 RGenO).trace (RNGMin.new st now s) (List.replicate n .rand) =
        (TRNG F64 RGenI).trace (RNGSmall.new st now s) (List.replicate n .rand)) ↔
      s.toNat % 2 ^ 24 = 0x5a5a5a :=
  min_trace_eq_iff wordsApart_binary st now s hs

/-- `RNG` against `RNGSmall` after a reseeding, in floating point. -/
theorem reseeded_draws_eq_iff (raw : Vector F64 RGenC.CACHE_SZ) (st : Statics F64)
    (now now' s t : U32) (hs : s.toNat % 2 ^ 24 ≠ 0) (ht : t.toNat % 2 ^ 24 ≠ 0) (n : ℕ) :
    (∀ m, (TRNG F64 (RGenC F64)).trace ((TRNG F64 (RGenC F64)).exec (RNG.new raw st now s)
          (List.replicate n Call.rand ++ [.setSeed t now'])) (List.replicate m .rand) =
        (TRNG F64 RGenI).trace ((TRNG F64 RGenI).exec (RNGSmall.new st now s)
          (List.replicate n Call.rand ++ [.setSeed t now'])) (List.replicate m .rand)) ↔
      2 ^ 40 ∣ n :=
  reseeded_trace_eq_iff wordsApart_binary raw st now now' s t hs ht n

/-! ## Integers -/

section Integers

variable {x : F64}

/-- A product with `n` is rounded to less than `n`, and then to its floor. -/
theorem selectFrom_floor (h0 : 0 ≤ x.val) (h1 : x.val ≤ 1 - 1 / 2 ^ 32) {n : U32} (hn : n ≠ 0) :
    ∃ r, selectFrom n x = some r ∧ (r.toNat : ℤ) = ⌊binaryRound 53 (n.toNat * x.val)⌋ ∧
      r < n := by
  have hnat : ((n.toNat : ℕ) : F64).val = n.toNat :=
    Binary.natCast_val (by decide) (n.isLt.le.trans (by decide))
  have hpos : (0 : ℚ) < n.toNat := by
    have hne : n.toNat ≠ 0 := fun h => hn (BitVec.eq_of_toNat_eq h)
    exact_mod_cast Nat.pos_of_ne_zero hne
  have hprod : (n.toNat : ℚ) * x.val ≤ n.toNat * (1 - 1 / 2 ^ 32) :=
    mul_le_mul_of_nonneg_left h1 hpos.le
  have hprod₀ : 0 ≤ (n.toNat : ℚ) * x.val := mul_nonneg hpos.le h0
  have herr := (abs_le.mp (abs_binaryRound_sub_le 53 ((n.toNat : ℚ) * x.val))).2
  rw [abs_of_nonneg hprod₀] at herr
  have hge : 0 ≤ binaryRound 53 ((n.toNat : ℚ) * x.val) :=
    nearest64.ge_of_ge ⟨0, 0, by norm_num, by norm_num⟩ hprod₀
  have hlt : binaryRound 53 ((n.toNat : ℚ) * x.val) < n.toNat := by
    norm_num at hprod herr ⊢
    linarith
  have hfloor : ⌊binaryRound 53 ((n.toNat : ℚ) * x.val)⌋ < n.toNat := by
    rw [Int.floor_lt]
    exact_mod_cast hlt
  have hmax : (n.toNat : ℤ) < 2 ^ 32 := by exact_mod_cast n.isLt
  obtain ⟨r, hr, hrn⟩ := toUnsigned_of_lt hge (hfloor.trans hmax)
  refine ⟨r, ?_, hrn, ?_⟩
  · rw [selectFrom, Binary.mul_val, hnat]
    exact hr
  · rw [BitVec.lt_def]
    omega

theorem selectFrom_lt (h0 : 0 ≤ x.val) (h1 : x.val ≤ 1 - 1 / 2 ^ 32) {n : U32} (hn : n ≠ 0) :
    ∃ r, selectFrom n x = some r ∧ r < n := by
  obtain ⟨r, hr, -, hrn⟩ := selectFrom_floor h0 h1 hn
  exact ⟨r, hr, hrn⟩

theorem uniformIntFrom_mem (h0 : 0 ≤ x.val) (h1 : x.val ≤ 1 - 1 / 2 ^ 32)
    {minValue limitValue : Int32} (h : minValue < limitValue) : ∃ r,
      uniformIntFrom minValue limitValue x = some r ∧ minValue ≤ r ∧ r < limitValue := by
  have hn := toNat_limit_sub h
  have hlt := Int32.lt_iff_toInt_lt.mp h
  have hne : (limitValue - minValue).toBitVec ≠ 0 := by
    intro hzero
    rw [hzero] at hn
    simp at hn
    omega
  obtain ⟨r, hr, hrn⟩ := selectFrom_lt h0 h1 hne
  rw [BitVec.lt_def] at hrn
  have hsum := toInt_min_add (r := r) (show _ < limitValue.toInt - minValue.toInt by omega)
  refine ⟨Int32.ofBitVec (minValue.toBitVec + r), ?_, ?_, ?_⟩
  · rw [uniformIntFrom, hr]
    rfl
  · rw [Int32.le_iff_toInt_le, hsum]
    omega
  · rw [Int32.lt_iff_toInt_lt, hsum]
    omega

end Integers

/-! ## Draws in a reachable state -/

/-- What is drawn in the state `s` is in its range. -/
structure Sound (s : Statics F64 × G) : Prop where
  rand : 0 ≤ (Generator.rand s.1 s.2).1.val ∧ (Generator.rand s.1 s.2).1.val ≤ 1 - 1 / 2 ^ 23
  randf : 0 ≤ (randf s.1 s.2).1.val ∧ (randf s.1 s.2).1.val ≤ 1 - 1 / 2 ^ 23
  select : ∀ n ≠ 0, ∃ r g', select n s.1 s.2 = some (r, g') ∧ r < n
  uniformInt : ∀ minValue limitValue, minValue < limitValue → ∃ r g',
    uniformInt minValue limitValue s.1 s.2 = some (r, g') ∧ minValue ≤ r ∧ r < limitValue

theorem sound_of_rand {s : Statics F64 × G}
    (h : 0 ≤ (Generator.rand s.1 s.2).1.val ∧ (Generator.rand s.1 s.2).1.val ≤ 1 - 1 / 2 ^ 23) :
    Sound s where
  rand := h
  randf := by
    constructor
    · exact nearest32.ge_of_ge ⟨0, 0, by norm_num, by norm_num⟩ h.1
    · exact nearest32.le_of_le ⟨2 ^ 23 - 1, -23, by norm_num, by norm_num⟩ h.2
  select n hn := by
    obtain ⟨r, hr, hrn⟩ := selectFrom_lt h.1 (h.2.trans (by norm_num)) hn
    exact ⟨r, _, congrArg (Option.map _) hr, hrn⟩
  uniformInt minValue limitValue hlt := by
    obtain ⟨r, hr, hmem⟩ := uniformIntFrom_mem h.1 (h.2.trans (by norm_num)) hlt
    exact ⟨r, _, congrArg (Option.map _) hr, hmem⟩

/-- No method of `TRNG` over `RGenI` or over `RGenO` writes `_coeff`. -/
theorem coeff_small (s : Statics F64 × RGenI) (calls : List Call) :
    ((TRNG F64 RGenI).exec s calls).1.coeff = s.1.coeff :=
  Machine.exec_eq_of_step (f := fun t => t.1.coeff) (fun _ call => by cases call <;> rfl) s calls

theorem coeff_min (s : Statics F64 × RGenO) (calls : List Call) :
    ((TRNG F64 RGenO).exec s calls).1.coeff = s.1.coeff :=
  Machine.exec_eq_of_step (f := fun t => t.1.coeff) (fun _ call => by cases call <;> rfl) s calls

section Reachable

variable (st : Statics F64) (calls : List Call)

theorem rand_small :
    let s := (TRNG F64 RGenI).exec (RGenI.new st) calls
    0 ≤ (Generator.rand s.1 s.2).1.val ∧ (Generator.rand s.1 s.2).1.val ≤ 1 - 1 / 2 ^ 23 :=
  toUnitReal_mem (coeff_small (RGenI.new st) calls) _

theorem rand_min :
    let s := (TRNG F64 RGenO).exec (RGenO.new st) calls
    0 ≤ (Generator.rand s.1 s.2).1.val ∧ (Generator.rand s.1 s.2).1.val ≤ 1 - 1 / 2 ^ 23 :=
  toUnitReal_mem (coeff_min (RGenO.new st) calls) _

/-- The draw of `RGenC` is that of its logical counter. -/
theorem rand_cache (raw : Vector F64 RGenC.CACHE_SZ) :
    let s := (TRNG F64 (RGenC F64)).exec (RGenC.new raw st) calls
    0 ≤ (Generator.rand s.1 s.2).1.val ∧ (Generator.rand s.1 s.2).1.val ≤ 1 - 1 / 2 ^ 23 := by
  intro s
  obtain ⟨g, hg⟩ := exists_synced_exec raw st calls
  have hst : s.1.coeff = unitCoeff F64 :=
    congrArg Statics.coeff (statics_exec (RGenC.new raw st) calls)
  have hrand : (Generator.rand s.1 s.2).1 = g.value s.1 := hg.rand.1
  rw [hrand]
  exact toUnitReal_mem hst g.rightWord

end Reachable

/-- **In floating point no draw comes up to `1`**, whatever generator it is of and whatever was
called before: not as a `double`, not as a `float`, and not scaled to an integer. -/
theorem draws_sound (st : Statics F64) (calls : List Call) :
    Sound ((TRNG F64 RGenI).exec (RGenI.new st) calls) ∧
      Sound ((TRNG F64 RGenO).exec (RGenO.new st) calls) ∧
      ∀ raw : Vector F64 RGenC.CACHE_SZ,
        Sound ((TRNG F64 (RGenC F64)).exec (RGenC.new raw st) calls) :=
  ⟨sound_of_rand (rand_small st calls), sound_of_rand (rand_min st calls),
    fun raw => sound_of_rand (rand_cache st calls raw)⟩

end IEEE

end DBUtl
