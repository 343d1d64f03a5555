import DBUtl.RNGCycle
import DBUtl.RNGDouble

/-!
# Frequencies in floating point

Over a full cycle, `flip`, `select` and `uniformInt` in the arithmetic of the machine. A draw is
rounded once, in the conversion to the unit interval, and once more when it is scaled; neither moves
it by more than `2⁻⁵²` (`draw_near`, `scaled_near`). So a comparison with the draw comes out as with
the exact one wherever the two sides are farther apart, and the frequencies are those of exact
arithmetic but for that error.
-/

namespace DBUtl

namespace IEEE

variable {G : Type*} [Generator F64 G]

/-- `flip(p)`. -/
def flip (p : F64) (st : Statics F64) (g : G) : Bool × G :=
  let (x, g') := Generator.rand st g
  (x.val ≤ p.val, g')

/-- `select` returns a number below `k`. -/
def selectsBelow (n : U32) (k : ℕ) (st : Statics F64) (h : RGenI) : Bool :=
  match select n st h with
  | some (r, _) => r.toNat < k
  | none => false

def uniformIntBelow (minValue limitValue : Int32) (m : ℤ) (st : Statics F64) (h : RGenI) : Bool :=
  match uniformInt minValue limitValue st h with
  | some (r, _) => r.toInt < m
  | none => false

/-- How often `P` is true over a cycle from `g`, as a part of the whole. -/
def frequency (st : Statics F64) (g : RGenI) (P : RGenI → Bool) : ℚ :=
  ((Finset.range (2 ^ 64)).filter fun i => P ((fun h => (h.rand st).2)^[i] g)).card / 2 ^ 64

/-- The counter goes round as in exact arithmetic. -/
theorem frequency_eq (st : Statics F64) (g : RGenI) (P : RGenI → Bool) :
    frequency st g P = DBUtl.frequency ⟨0, 0⟩ g P := rfl

/-- The frequencies of the uniform distribution, with the error of the largest draw, and that of
rounding. -/
def Near (p x : ℚ) : Prop := p - 1 / 2 ^ 51 ≤ x ∧ x ≤ p + 1 / 2 ^ 51 + 1 / 2 ^ 23

/-! ## The errors -/

section Errors

variable {st : Statics F64} (hst : st.coeff = unitCoeff F64)

include hst

/-- A draw against the exact one. -/
theorem draw_near (w : U32) :
    |(RGenI.toUnitReal st w).val - w.toNat * unitCoeff ℚ| ≤ 1 / 2 ^ 52 := by
  have hw : (w.toNat : ℚ) ≤ 4294967295 := by exact_mod_cast Nat.le_of_lt_succ w.isLt
  have hw₀ : (0 : ℚ) ≤ w.toNat := Nat.cast_nonneg _
  have hcoeff : unitCoeff ℚ = (1 - 1 / 2 ^ 23) / (2 ^ 32 - 1) := by norm_num [unitCoeff]
  obtain ⟨hlo, hhi⟩ := abs_le.1
    (abs_binaryRound_sub_le 53 (w.toNat * ((2 ^ 32 - 2 ^ 9 + 1) / 2 ^ 64)))
  rw [abs_of_nonneg (by positivity)] at hlo hhi
  rw [toUnitReal_val hst, hcoeff, abs_le]
  norm_num at hlo hhi ⊢
  constructor <;> linarith

/-- And scaled. -/
theorem scaled_near (n : U32) (w : U32) :
    |binaryRound 53 (n.toNat * (RGenI.toUnitReal st w).val) -
      n.toNat * (w.toNat * unitCoeff ℚ)| ≤ n.toNat * (1 / 2 ^ 51) := by
  have hn : (0 : ℚ) ≤ n.toNat := Nat.cast_nonneg _
  obtain ⟨h0, h1⟩ := toUnitReal_mem hst w
  have hdraw := abs_le.1 (draw_near hst w)
  have hprod : (n.toNat : ℚ) * (RGenI.toUnitReal st w).val ≤ n.toNat :=
    mul_le_of_le_one_right hn (h1.trans (by norm_num))
  rw [← abs_of_nonneg (mul_nonneg hn h0)] at hprod
  have herr := abs_le.1 (abs_binaryRound_sub_le_of_le (p := 53) hprod)
  have hlo := mul_le_mul_of_nonneg_left hdraw.1 hn
  have hhi := mul_le_mul_of_nonneg_left hdraw.2 hn
  rw [mul_sub] at hlo hhi
  rw [abs_le]
  constructor <;> linarith [herr.1, herr.2]

/-- A comparison of the draw with `p`. -/
theorem draw_frequency {p : ℚ} (h0 : 0 ≤ p) (h1 : p ≤ 1) {P : RGenI → Bool}
    (hP : ∀ h : RGenI, P h = true ↔ (RGenI.toUnitReal st h.rightWord).val ≤ p) (g : RGenI) :
    Near p (frequency st g P) := by
  rw [Near, frequency_eq]
  refine frequency_of_error h0 h1 (by norm_num) (fun h hlt => ?_) (fun h hh => ?_) g
  · have hnear := (abs_le.1 (draw_near hst h.rightWord)).2
    rw [hP]
    norm_num at hnear hlt
    linarith
  · have hnear := (abs_le.1 (draw_near hst h.rightWord)).1
    rw [hP] at hh
    norm_num at hnear ⊢
    linarith

/-- A comparison of the scaled draw with `k`. -/
theorem scaled_frequency {n : U32} (hn : n ≠ 0) {k : ℤ} (h0 : 0 ≤ k) (hk : k ≤ n.toNat)
    {P : RGenI → Bool} (hP : ∀ h : RGenI, P h = true ↔
      ⌊binaryRound 53 (n.toNat * (RGenI.toUnitReal st h.rightWord).val)⌋ < k) (g : RGenI) :
    Near (k / n.toNat) (frequency st g P) := by
  have hnpos : (0 : ℚ) < n.toNat := by
    have hne : n.toNat ≠ 0 := fun h => hn (BitVec.eq_of_toNat_eq h)
    exact_mod_cast Nat.pos_of_ne_zero hne
  have hk0 : (0 : ℚ) ≤ k := by exact_mod_cast h0
  have hk1 : (k : ℚ) / n.toNat ≤ 1 := (div_le_one hnpos).2 (by exact_mod_cast hk)
  rw [Near, frequency_eq]
  refine frequency_of_error (div_nonneg hk0 hnpos.le) hk1 (by norm_num) (fun h hlt => ?_)
    (fun h hh => ?_) g
  · have hnear := (abs_le.1 (scaled_near hst n h.rightWord)).2
    have hmul := mul_lt_mul_of_pos_left hlt hnpos
    rw [mul_sub, mul_div_cancel₀ _ hnpos.ne'] at hmul
    rw [hP, Int.floor_lt]
    linarith
  · have hnear := (abs_le.1 (scaled_near hst n h.rightWord)).1
    rw [hP, Int.floor_lt] at hh
    rw [div_add' _ _ _ hnpos.ne', le_div_iff₀ hnpos]
    linarith

end Errors

/-! ## The frequencies -/

/-- **In floating point, over a full cycle the draws are uniform**, up to `2⁻²³ + 2⁻⁵¹`, from any
state. -/
theorem frequencies_near (st : Statics F64) (hst : st.coeff = unitCoeff F64) (g : RGenI) :
    (∀ p : F64, 0 ≤ p.val → p.val ≤ 1 →
      Near p.val (frequency st g fun h => (flip p st h).1)) ∧
    (∀ n : U32, n ≠ 0 → ∀ k ≤ n.toNat,
      Near ((k : ℚ) / n.toNat) (frequency st g (selectsBelow n k st))) ∧
    ∀ minValue limitValue : Int32, minValue < limitValue → ∀ m : ℤ, minValue.toInt ≤ m →
      m ≤ limitValue.toInt →
      Near (((m - minValue.toInt : ℤ) : ℚ) / ((limitValue.toInt - minValue.toInt : ℤ) : ℚ))
        (frequency st g (uniformIntBelow minValue limitValue m st)) := by
  have hmem (h : RGenI) : 0 ≤ (Generator.rand st h).1.val ∧
      (Generator.rand st h).1.val ≤ 1 - 1 / 2 ^ 32 := by
    obtain ⟨h0, h1⟩ := toUnitReal_mem hst h.rightWord
    exact ⟨h0, h1.trans (by norm_num)⟩
  refine ⟨fun p h0 h1 => draw_frequency hst h0 h1 (fun h => decide_eq_true_iff) g,
    fun n hn k hk => ?_, fun minValue limitValue hlt m hlo hhi => ?_⟩
  · refine scaled_frequency (k := k) hst hn (by omega) (by exact_mod_cast hk) (fun h => ?_) g
    obtain ⟨r, hr, hfloor, -⟩ := selectFrom_floor (hmem h).1 (hmem h).2 hn
    have hselect : select n st h = some (r, (Generator.rand st h).2) :=
      congrArg (Option.map _) hr
    rw [selectsBelow, hselect, decide_eq_true_iff, ← Nat.cast_lt (α := ℤ), hfloor]
    rfl
  · have hwidth := toNat_limit_sub hlt
    have hlt' := Int32.lt_iff_toInt_lt.1 hlt
    rw [← hwidth]
    generalize hn : (limitValue - minValue).toBitVec = n at hwidth
    have hne : n ≠ 0 := by
      rintro rfl
      simp at hwidth
      omega
    refine scaled_frequency hst hne (sub_nonneg.2 hlo) (by omega) (fun h => ?_) g
    obtain ⟨r, hr, hfloor, hrn⟩ := selectFrom_floor (hmem h).1 (hmem h).2 hne
    rw [BitVec.lt_def] at hrn
    have hsum := toInt_min_add (r := r) (show _ < limitValue.toInt - minValue.toInt by omega)
    have huniform : uniformInt minValue limitValue st h =
        some (Int32.ofBitVec (minValue.toBitVec + r), (Generator.rand st h).2) := by
      have hfrom : uniformIntFrom minValue limitValue (Generator.rand st h).1 =
          some (Int32.ofBitVec (minValue.toBitVec + r)) := by
        rw [uniformIntFrom, hn, hr]
        rfl
      exact congrArg (Option.map _) hfrom
    rw [uniformIntBelow, huniform, decide_eq_true_iff, hsum, ← lt_sub_iff_add_lt', hfloor]
    rfl

/-- A die. -/
theorem frequencies_near_die :
    Near ((5 : ℕ) / ((6 : U32).toNat : ℕ)) (frequency ⟨unitCoeff F64, 0⟩ ⟨RGenI.INIT_DATA⟩
      (selectsBelow 6 5 ⟨unitCoeff F64, 0⟩)) :=
  (frequencies_near ⟨unitCoeff F64, 0⟩ rfl ⟨RGenI.INIT_DATA⟩).2.1 6 (by decide) 5 (by decide)

end IEEE

end DBUtl
