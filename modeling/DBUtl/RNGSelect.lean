import DBUtl.Lib.Scaling
import DBUtl.RNG2Proof
import DBUtl.RNGCache
import DBUtl.RNGHash
import Mathlib.Data.Rat.Floor

/-!
# Integers from draws

`select(n)` scales a draw by `n` and truncates it, and `uniformInt` shifts such a number to an
interval of `int32_t`. Both are written out in `TRNG` and again in `RNG2`.

The draws of `TRNG` are multiples of `_coeff`, from `0` to `1 - 2⁻²³`: the constructor takes the
epsilon of `float` where the words have 32 bits. So `select(n)` returns every number below `n` only
for `n ≤ 2²³`. All draws are below `1`, which is what `uniformInt` needs to stay in its interval;
the difference of the limits and the sum wrap around, and the two cancel.
-/

namespace DBUtl

/-! ## The methods -/

/-- The conversion of a real to `unsigned`: it drops the fraction, and is undefined where the type
does not hold the result. -/
def toUnsigned (x : ℚ) : Option U32 :=
  let t := if 0 ≤ x then ⌊x⌋ else ⌈x⌉
  if 0 ≤ t ∧ t < 2 ^ 32 then some (BitVec.ofInt 32 t) else none

/-- `(unsigned)(n * x)`. -/
def selectFrom (n : U32) (x : ℚ) : Option U32 := toUnsigned ((n.toNat : ℚ) * x)

/-- `minValue + select(limitValue - minValue)`, with the draw `x`: the argument and the sum are
`unsigned`, and the result is converted back. -/
def uniformIntFrom (minValue limitValue : Int32) (x : ℚ) : Option Int32 :=
  (selectFrom (limitValue - minValue).toBitVec x).map fun r =>
    Int32.ofBitVec (minValue.toBitVec + r)

namespace TRNG

variable {G : Type*} [Generator ℚ G]

def select (n : U32) (st : Statics ℚ) (g : G) : Option (U32 × G) :=
  let (x, g') := Generator.rand st g
  (selectFrom n x).map (·, g')

def uniformInt (minValue limitValue : Int32) (st : Statics ℚ) (g : G) : Option (Int32 × G) :=
  let (x, g') := Generator.rand st g
  (uniformIntFrom minValue limitValue x).map (·, g')

end TRNG

namespace RNG2

def select (n : U32) (g : RNG2) : Option (U32 × RNG2) := do
  let (x, g') ← g.rand
  (selectFrom n x).map (·, g')

def uniformInt (minValue limitValue : Int32) (g : RNG2) : Option (Int32 × RNG2) := do
  let (x, g') ← g.rand
  (uniformIntFrom minValue limitValue x).map (·, g')

end RNG2

/-! ## Scaling a draw -/

section Draw

variable {x : ℚ}

/-- A product that is not negative and fits is converted to its floor. -/
theorem toUnsigned_of_lt (h0 : 0 ≤ x) (hlt : ⌊x⌋ < 2 ^ 32) :
    ∃ r, toUnsigned x = some r ∧ (r.toNat : ℤ) = ⌊x⌋ := by
  have hfloor := Int.floor_nonneg.2 h0
  refine ⟨BitVec.ofInt 32 ⌊x⌋, ?_, ?_⟩
  · unfold toUnsigned
    rw [if_pos h0, if_pos ⟨hfloor, hlt⟩]
  · rw [BitVec.toNat_ofInt, Int.toNat_of_nonneg (Int.emod_nonneg _ (by decide)),
      Int.emod_eq_of_lt hfloor (by simpa using hlt)]

/-- A draw from the unit interval selects a number below `n`. -/
theorem selectFrom_spec {n : U32} (hn : 0 < n.toNat) (h0 : 0 ≤ x) (h1 : x < 1) :
    ∃ r, selectFrom n x = some r ∧ (r.toNat : ℤ) = ⌊(n.toNat : ℚ) * x⌋ ∧ r.toNat < n.toNat := by
  obtain ⟨hlo, hhi⟩ := Scaling.floor_mem hn h0 h1
  have hlt := n.isLt
  have hnx : 0 ≤ (n.toNat : ℚ) * x := mul_nonneg (Nat.cast_nonneg _) h0
  obtain ⟨r, hr, hfloor⟩ := toUnsigned_of_lt hnx (by omega)
  exact ⟨r, hr, hfloor, by omega⟩

end Draw

/-! ## The interval of `uniformInt` -/

section Interval

variable {minValue limitValue : Int32}

theorem toInt_eq_cond (x : Int32) :
    x.toInt =
      if 2 * x.toBitVec.toNat < 2 ^ 32 then (x.toBitVec.toNat : ℤ)
      else x.toBitVec.toNat - 2 ^ 32 := by
  rw [← Int32.toInt_toBitVec, BitVec.toInt_eq_toNat_cond]
  norm_cast

/-- The difference of the limits, taken as `unsigned`, is that of the integers. -/
theorem toNat_limit_sub (h : minValue < limitValue) :
    ((limitValue - minValue).toBitVec.toNat : ℤ) = limitValue.toInt - minValue.toInt := by
  have hlt := Int32.lt_iff_toInt_lt.1 h
  have hmin := minValue.toBitVec.isLt
  have hlimit := limitValue.toBitVec.isLt
  rw [toInt_eq_cond, toInt_eq_cond] at hlt ⊢
  rw [Int32.toBitVec_sub, BitVec.toNat_sub]
  split_ifs at hlt ⊢ <;> omega

/-- Adding less than the difference stays in the interval, if the sum is converted back. -/
theorem toInt_min_add {r : U32}
    (hr : (r.toNat : ℤ) < limitValue.toInt - minValue.toInt) :
    (Int32.ofBitVec (minValue.toBitVec + r)).toInt = minValue.toInt + r.toNat := by
  have hlt := limitValue.toInt_lt
  have hlo := minValue.le_toInt
  have hmin := minValue.toBitVec.isLt
  rw [toInt_eq_cond minValue] at hr hlo ⊢
  rw [toInt_eq_cond, Int32.toBitVec_ofBitVec, BitVec.toNat_add]
  split_ifs at hr hlo ⊢ <;> omega

/-- **`uniformInt` stays in its interval**, from any draw of the unit interval. -/
theorem uniformIntFrom_spec (h : minValue < limitValue) {x : ℚ} (h0 : 0 ≤ x) (h1 : x < 1) :
    ∃ r, uniformIntFrom minValue limitValue x = some r ∧ minValue ≤ r ∧ r < limitValue := by
  have hn := toNat_limit_sub h
  have hlt := Int32.lt_iff_toInt_lt.1 h
  obtain ⟨r, hr, -, hrn⟩ := selectFrom_spec (n := (limitValue - minValue).toBitVec) (by omega) h0 h1
  have hsum := toInt_min_add (r := r) (show _ < limitValue.toInt - minValue.toInt by omega)
  refine ⟨Int32.ofBitVec (minValue.toBitVec + r), ?_, ?_, ?_⟩
  · rw [uniformIntFrom, hr]
    rfl
  · rw [Int32.le_iff_toInt_le, hsum]
    omega
  · rw [Int32.lt_iff_toInt_lt, hsum]
    omega

end Interval

/-! ## The draws of `TRNG` -/

section Draws

variable {st : Statics ℚ}

theorem unitCoeff_pos : 0 < unitCoeff ℚ := by
  norm_num [unitCoeff]

/-- The largest word is scaled to the last point of the grid. -/
theorem last_mul_unitCoeff : ((2 ^ 32 - 1 : ℕ) : ℚ) * unitCoeff ℚ = 1 - 1 / 2 ^ 23 := by
  norm_num [unitCoeff]

theorem toUnitReal_mem (hst : st.coeff = unitCoeff ℚ) (w : U32) :
    0 ≤ RGenI.toUnitReal st w ∧ RGenI.toUnitReal st w < 1 := by
  have hw : (w.toNat : ℚ) ≤ ((2 ^ 32 - 1 : ℕ) : ℚ) := by
    have hlt := w.isLt
    exact_mod_cast (show w.toNat ≤ 2 ^ 32 - 1 by omega)
  have hmul := mul_le_mul_of_nonneg_right hw unitCoeff_pos.le
  rw [last_mul_unitCoeff] at hmul
  unfold RGenI.toUnitReal
  rw [hst]
  constructor
  · exact mul_nonneg (Nat.cast_nonneg _) unitCoeff_pos.le
  · exact lt_of_le_of_lt hmul (by norm_num)

/-- Every word is hashed from some state. -/
theorem exists_rightWord_eq (w : U32) : ∃ g : RGenI, g.rightWord = w := by
  obtain ⟨v, hv⟩ := RGenI.psdes_bijective.2 (0, w)
  obtain ⟨d, rfl⟩ := RGenI.words_bijective.2 v
  exact ⟨⟨d⟩, congrArg Prod.snd hv⟩

/-- **Scaled by `n`, a word gives `k`** exactly if the largest one is scaled to as much. -/
theorem exists_floor_toUnitReal_iff (hst : st.coeff = unitCoeff ℚ) {n : U32} (hn : 0 < n.toNat)
    (k : ℕ) :
    (∃ w : U32, ⌊(n.toNat : ℚ) * RGenI.toUnitReal st w⌋ = k) ↔
      k * 2 ^ 23 ≤ n.toNat * (2 ^ 23 - 1) := by
  have hmax : (n.toNat : ℚ) ≤ ((2 ^ 32 - 1 : ℕ) : ℚ) := by
    have hlt := n.isLt
    exact_mod_cast (show n.toNat ≤ 2 ^ 32 - 1 by omega)
  have hfine : (n.toNat : ℚ) * unitCoeff ℚ ≤ 1 := by
    have hmul := mul_le_mul_of_nonneg_right hmax unitCoeff_pos.le
    rw [last_mul_unitCoeff] at hmul
    exact hmul.trans (by norm_num)
  have hlast : (k : ℚ) ≤ n.toNat * (((2 ^ 32 - 1 : ℕ) : ℚ) * unitCoeff ℚ) ↔
      k * 2 ^ 23 ≤ n.toNat * (2 ^ 23 - 1) := by
    rw [last_mul_unitCoeff, show (1 : ℚ) - 1 / 2 ^ 23 = ((2 ^ 23 - 1 : ℕ) : ℚ) / 2 ^ 23 by norm_num,
      mul_div_assoc', le_div_iff₀ (by positivity)]
    exact_mod_cast Iff.rfl
  rw [← hlast, ← Scaling.exists_floor_eq_iff unitCoeff_pos hn hfine]
  constructor
  · rintro ⟨w, hw⟩
    have hlt := w.isLt
    refine ⟨w.toNat, by omega, ?_⟩
    rwa [← hst]
  · rintro ⟨w, hle, hw⟩
    refine ⟨BitVec.ofNat 32 w, ?_⟩
    have hto : (BitVec.ofNat 32 w).toNat = w := by
      rw [BitVec.toNat_ofNat, Nat.mod_eq_of_lt (by omega)]
    rwa [RGenI.toUnitReal, hto, hst]

/-- The words give every number below `n` only for `n ≤ 2²³`. -/
theorem forall_floor_toUnitReal_iff (hst : st.coeff = unitCoeff ℚ) (n : U32) :
    (∀ k < n.toNat, ∃ w : U32, ⌊(n.toNat : ℚ) * RGenI.toUnitReal st w⌋ = k) ↔
      n.toNat ≤ 2 ^ 23 := by
  constructor
  · intro h
    by_contra hgt
    have hpos : 0 < n.toNat := by omega
    have hlast := (exists_floor_toUnitReal_iff hst hpos _).1 (h (n.toNat - 1) (by omega))
    omega
  · intro hle k hk
    rw [exists_floor_toUnitReal_iff hst (Nat.zero_lt_of_lt hk)]
    omega

/-- `select` of `RNGSmall` returns the floor of the scaled word. -/
theorem select_eq_iff (hst : st.coeff = unitCoeff ℚ) {n : U32} {k : ℕ} (hk : k < n.toNat)
    (g : RGenI) :
    (∃ r g', TRNG.select n st g = some (r, g') ∧ r.toNat = k) ↔
      ⌊(n.toNat : ℚ) * RGenI.toUnitReal st g.rightWord⌋ = k := by
  obtain ⟨h0, h1⟩ := toUnitReal_mem hst g.rightWord
  obtain ⟨r, hr, hfloor, -⟩ := selectFrom_spec (Nat.zero_lt_of_lt hk) h0 h1
  have hselect : TRNG.select n st g = some (r, ⟨g.data + 1⟩) := congrArg (Option.map _) hr
  rw [hselect, ← hfloor]
  constructor
  · rintro ⟨r', g', heq, rfl⟩
    obtain ⟨rfl, -⟩ := Prod.mk.inj (Option.some.inj heq)
    rfl
  · intro h
    exact ⟨r, _, rfl, by exact_mod_cast h⟩

/-- A word is enough, since it is hashed from some state. -/
theorem exists_select_iff (hst : st.coeff = unitCoeff ℚ) {n : U32} {k : ℕ} (hk : k < n.toNat) :
    (∃ (g : RGenI) (r : U32) (g' : RGenI), TRNG.select n st g = some (r, g') ∧ r.toNat = k) ↔
      ∃ w : U32, ⌊(n.toNat : ℚ) * RGenI.toUnitReal st w⌋ = k := by
  constructor
  · rintro ⟨g, hg⟩
    exact ⟨g.rightWord, (select_eq_iff hst hk g).1 hg⟩
  · rintro ⟨w, hw⟩
    obtain ⟨g, rfl⟩ := exists_rightWord_eq w
    exact ⟨g, (select_eq_iff hst hk g).2 hw⟩

/-- **What `select(n)` can return**: the numbers up to `n - n / 2²³`. -/
theorem exists_select_eq_iff (hst : st.coeff = unitCoeff ℚ) {n : U32} {k : ℕ} (hk : k < n.toNat) :
    (∃ (g : RGenI) (r : U32) (g' : RGenI), TRNG.select n st g = some (r, g') ∧ r.toNat = k) ↔
      k * 2 ^ 23 ≤ n.toNat * (2 ^ 23 - 1) :=
  (exists_select_iff hst hk).trans (exists_floor_toUnitReal_iff hst (Nat.zero_lt_of_lt hk) k)

end Draws

/-- **`select(n)` can return every number below `n` only for `n ≤ 2²³`.** -/
theorem select_onto_iff (seed n : U32) :
    ((∀ k < n.toNat, ∃ w : U32,
        ⌊(n.toNat : ℚ) * RGenI.toUnitReal ⟨unitCoeff ℚ, seed⟩ w⌋ = k) ↔ n.toNat ≤ 2 ^ 23) ∧
    ((∀ k < n.toNat, ∃ (g : RGenI) (r : U32) (g' : RGenI),
        TRNG.select n ⟨unitCoeff ℚ, seed⟩ g = some (r, g') ∧ r.toNat = k) ↔
      n.toNat ≤ 2 ^ 23) := by
  have hst : (⟨unitCoeff ℚ, seed⟩ : Statics ℚ).coeff = unitCoeff ℚ := rfl
  have hwords := forall_floor_toUnitReal_iff hst n
  refine ⟨hwords, Iff.trans ?_ hwords⟩
  exact forall₂_congr fun k hk => exists_select_iff hst hk

/-- `select(2²³ + 1)` does not return `2²³`. -/
theorem select_misses :
    ¬ ∀ (seed n : U32), n ≠ 0 → ∀ k < n.toNat, ∃ w : U32,
      ⌊(n.toNat : ℚ) * RGenI.toUnitReal ⟨unitCoeff ℚ, seed⟩ w⌋ = k := by
  intro h
  have hall := h 0 0x800001 (by decide)
  rw [forall_floor_toUnitReal_iff rfl] at hall
  exact absurd hall (by decide)

/-! ## `uniformInt` in a reachable state -/

/-- In the state `s`, `uniformInt` converts a product that fits and returns a number of its
interval. -/
def TRNG.InInterval {G : Type*} [Generator ℚ G] (minValue limitValue : Int32)
    (s : Statics ℚ × G) : Prop :=
  let product := ((limitValue - minValue).toBitVec.toNat : ℚ) * (Generator.rand s.1 s.2).1
  (0 ≤ product ∧ product < 2 ^ 32) ∧
    ∃ r g', TRNG.uniformInt minValue limitValue s.1 s.2 = some (r, g') ∧
      minValue ≤ r ∧ r < limitValue

/-- The product with a draw fits. -/
theorem product_mem (n : U32) {x : ℚ} (h0 : 0 ≤ x) (h1 : x < 1) :
    0 ≤ (n.toNat : ℚ) * x ∧ (n.toNat : ℚ) * x < 2 ^ 32 := by
  have hn : (n.toNat : ℚ) < 2 ^ 32 := by exact_mod_cast n.isLt
  have hle := mul_le_mul_of_nonneg_left h1.le (Nat.cast_nonneg (α := ℚ) n.toNat)
  rw [mul_one] at hle
  exact ⟨mul_nonneg (Nat.cast_nonneg _) h0, lt_of_le_of_lt hle hn⟩

theorem TRNG.inInterval {G : Type*} [Generator ℚ G] {minValue limitValue : Int32}
    (h : minValue < limitValue) {s : Statics ℚ × G}
    (hx : 0 ≤ (Generator.rand s.1 s.2).1 ∧ (Generator.rand s.1 s.2).1 < 1) :
    TRNG.InInterval minValue limitValue s := by
  obtain ⟨r, hr, hmem⟩ := uniformIntFrom_spec h hx.1 hx.2
  refine ⟨product_mem _ hx.1 hx.2, r, (Generator.rand s.1 s.2).2, ?_, hmem⟩
  exact congrArg (Option.map _) hr

/-- No method of `TRNG` over `RGenI` or over `RGenO` writes `_coeff`. -/
theorem coeff_exec_small (s : Statics ℚ × RGenI) (calls : List Call) :
    ((TRNG ℚ RGenI).exec s calls).1.coeff = s.1.coeff :=
  Machine.exec_eq_of_step (f := fun t => t.1.coeff) (fun _ call => by cases call <;> rfl) s calls

theorem coeff_exec_min (s : Statics ℚ × RGenO) (calls : List Call) :
    ((TRNG ℚ RGenO).exec s calls).1.coeff = s.1.coeff :=
  Machine.exec_eq_of_step (f := fun t => t.1.coeff) (fun _ call => by cases call <;> rfl) s calls

/-- **`uniformInt` never leaves its interval**, in any state that a generator reaches. -/
theorem uniformInt_inInterval (minValue limitValue : Int32) (h : minValue < limitValue) :
    (∀ (st : Statics ℚ) (calls : List Call), TRNG.InInterval minValue limitValue
      ((TRNG ℚ RGenI).exec (RGenI.new st) calls)) ∧
    (∀ (st : Statics ℚ) (calls : List Call), TRNG.InInterval minValue limitValue
      ((TRNG ℚ RGenO).exec (RGenO.new st) calls)) ∧
    (∀ (raw : Vector ℚ RGenC.CACHE_SZ) (st : Statics ℚ) (calls : List Call),
      TRNG.InInterval minValue limitValue ((TRNG ℚ (RGenC ℚ)).exec (RGenC.new raw st) calls)) ∧
    ∀ (raw : Vector ℤ RNG2.NTAB) (seed : Int32) (n : ℕ), ∃ g₀ g x g' r,
      RNG2.new raw seed = some g₀ ∧ g₀.after n = some g ∧ g.rand = some (x, g') ∧
      (0 ≤ ((limitValue - minValue).toBitVec.toNat : ℚ) * x ∧
        ((limitValue - minValue).toBitVec.toNat : ℚ) * x < 2 ^ 32) ∧
      g.uniformInt minValue limitValue = some (r, g') ∧ minValue ≤ r ∧ r < limitValue := by
  refine ⟨fun st calls => ?_, fun st calls => ?_, fun raw st calls => ?_, fun raw seed n => ?_⟩
  · exact TRNG.inInterval h (toUnitReal_mem (coeff_exec_small (RGenI.new st) calls) _)
  · exact TRNG.inInterval h (toUnitReal_mem (coeff_exec_min (RGenO.new st) calls) _)
  · obtain ⟨g, hg⟩ := exists_synced_exec raw st calls
    have hst : ((TRNG ℚ (RGenC ℚ)).exec (RGenC.new raw st) calls).1.coeff = unitCoeff ℚ := by
      rw [statics_exec]
      rfl
    have hdraw := toUnitReal_mem hst g.rightWord
    refine TRNG.inInterval h ?_
    show 0 ≤ (RGenC.rand _ _).1 ∧ (RGenC.rand _ _).1 < 1
    rw [hg.rand.1]
    exact hdraw
  · obtain ⟨g₀, g, g', hnew, hg, -, hrand, hlo, hhi⟩ := RNG2.rand_after raw seed n
    obtain ⟨-, hpos, hlt, -⟩ := RNG2.scaled_of_mem hlo hhi
    obtain ⟨r, hr, hmem⟩ := uniformIntFrom_spec h hpos.le hlt
    refine ⟨g₀, g, _, g', r, hnew, hg, hrand, product_mem _ hpos.le hlt, ?_, hmem⟩
    simp [RNG2.uniformInt, hrand, hr]

/-- The widest interval, and a draw of `RNGSmall`. -/
theorem uniformInt_inInterval_widest :
    TRNG.InInterval Int32.minValue Int32.maxValue
      ((TRNG ℚ RGenI).exec (RGenI.new ⟨0, 0⟩) [.setSeed 7 0, .rand]) :=
  (uniformInt_inInterval Int32.minValue Int32.maxValue (by decide)).1 ⟨0, 0⟩ [.setSeed 7 0, .rand]

end DBUtl
