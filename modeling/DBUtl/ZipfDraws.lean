import DBUtl.RNGCache
import DBUtl.RNGCycle
import DBUtl.ZipfShares

/-!
# Zipf ranks from the global generator

`zipf` takes its draws from the generator that `RNG::get` hands out. It is an `RNG`, shared by the
whole program, which may draw from it, move it and seed it between two calls of `zipf`; the first
`RNG::get` gives it a seed from the clock.

**Theorem (`zipf_frequencies`).** After whatever the program did, over `2 ^ 64` calls of `zipf` with
the same parameters every rank comes as often as its share says, up to `2⁻²³`.

Every call takes one draw. The cache of the generator is no hindrance: at every moment it leads the
counter of an inline generator, so the draws of the calls are those of consecutive counters
(`trace_zipf`), and over a full cycle the words behind them are equally frequent. A rank is an
interval of draws, and its two ends are each missed by less than `2⁻²³`.
-/

namespace DBUtl

open RGenI (next)

/-! ## The global generator -/

/-- `RNG::_global` and `_globalInitialized`, with the static members of the generator classes. -/
structure RNG.Global (D : Type) where
  initialized : Bool
  st : Statics D
  rng : RGenC D

section Global

variable {D : Type} [Double D]

/-- The generator when the constructor of `_global` has run. -/
def RNG.Global.start (raw : Vector D RGenC.CACHE_SZ) (st : Statics D) : RNG.Global D :=
  let (st', rng) := RGenC.new raw st
  ⟨false, st', rng⟩

/-- `_initGlobal`. It constructs an `RNG` for the sake of `_coeff`. -/
def RNG.initGlobal (raw : Vector D RGenC.CACHE_SZ) (now : U32) (g : RNG.Global D) :
    RNG.Global D :=
  let (st, _) := RGenC.new raw g.st
  let (st', rng) := Generator.setSeed now 0 st g.rng
  ⟨true, st', rng⟩

/-- `RNG::get`. -/
def RNG.get (raw : Vector D RGenC.CACHE_SZ) (now : U32) (g : RNG.Global D) : RNG.Global D :=
  if g.initialized then g else RNG.initGlobal raw now g

/-- A call of a method of the generator. -/
def RNG.Global.call (g : RNG.Global D) (c : Call) : Ret D × RNG.Global D :=
  let (x, st, rng) := (TRNG D (RGenC D)).step (g.st, g.rng) c
  (x, ⟨g.initialized, st, rng⟩)

end Global

namespace Zipf

/-! ## The program -/

/-- The static members of `Zipf` and of the generators. -/
structure Program (R D : Type) where
  statics : Statics R
  global : RNG.Global D

/-- A call of `zipf`, or of a method of `RNG::get()`. Both carry what `RNG::get` would find in its
first call: the clock, and the storage the constructor is given. -/
inductive ProgramCall (R D : Type)
  | zipf (maxRandom : Int32) (theta : R) (raw : Vector D RGenC.CACHE_SZ) (now : U32)
  | rng (call : DBUtl.Call) (raw : Vector D RGenC.CACHE_SZ) (now : U32)

inductive Answer (D : Type)
  | rank (ret : Ret)
  | drawn (ret : DBUtl.Ret D)

variable {R D : Type} [Arith R] [Double D] (pow : R → R → R) (ofDraw : D → R)

/-- `zipf`, with its draw. The assertion comes before `RNG::get`. -/
def Program.zipf (s : Program R D) (maxRandom : Int32) (theta : R)
    (raw : Vector D RGenC.CACHE_SZ) (now : U32) : Ret × Program R D :=
  if ((0 : ℤ) : R) < theta then
    let g := RNG.get raw now s.global
    let (u, rng) := g.rng.rand g.st
    let (ret, statics) := Zipf.zipf pow maxRandom theta (ofDraw u) s.statics
    (ret, ⟨statics, ⟨g.initialized, g.st, rng⟩⟩)
  else (.aborted, s)

def program : Machine (Program R D) (ProgramCall R D) (Answer D) where
  step s
    | .zipf maxRandom theta raw now =>
      let (ret, s') := s.zipf pow ofDraw maxRandom theta raw now
      (.rank ret, s')
    | .rng c raw now =>
      let (x, g) := (RNG.get raw now s.global).call c
      (.drawn x, ⟨s.statics, g⟩)

/-- The start of the program. -/
def Program.start (raw : Vector D RGenC.CACHE_SZ) (st : DBUtl.Statics D) : Program R D :=
  ⟨Statics.init, RNG.Global.start raw st⟩

/-- The call returned the rank `r`. -/
def Answer.isRank (r : ℤ) : Answer D → Bool
  | .rank ret => ret = .returned r
  | .drawn _ => false

end Zipf

/-! ## What holds of the generator at every moment -/

/-- The cache leads the counter `h`, and the constructor has set `_coeff`. -/
structure RNG.Global.Leads (g : RNG.Global ℚ) (h : RGenI) : Prop where
  coeff : g.st.coeff = unitCoeff ℚ
  synced : RGenC.Synced g.st g.rng h

namespace RNG.Global.Leads

variable {g : RNG.Global ℚ} {h : RGenI}

theorem start (raw : Vector ℚ RGenC.CACHE_SZ) (st : Statics ℚ) :
    (RNG.Global.start raw st).Leads ⟨RGenI.INIT_DATA⟩ :=
  ⟨rfl, Prefetch.Leads.empty _ _⟩

/-- The seed from the clock empties the cache. -/
theorem get (hg : g.Leads h) (raw : Vector ℚ RGenC.CACHE_SZ) (now : U32) :
    (RNG.get raw now g).initialized = true ∧ ∃ h', (RNG.get raw now g).Leads h' := by
  unfold RNG.get
  split_ifs with hinit
  · exact ⟨hinit, h, hg⟩
  · exact ⟨rfl, _, rfl, Prefetch.Leads.empty _ _⟩

theorem call (hg : g.Leads h) (c : Call) : ∃ h', (g.call c).2.Leads h' := by
  cases c with
  | rand => exact ⟨next h, hg.coeff, hg.synced.rand.2⟩
  | setpos p => exact ⟨_, hg.coeff, RGenC.synced_setPos g.st g.rng p⟩
  | getPos => exact ⟨h, hg⟩
  | getSeed => exact ⟨h, hg⟩
  | setSeed s now => exact ⟨_, hg.coeff, Prefetch.Leads.empty _ _⟩

end RNG.Global.Leads

namespace Zipf

noncomputable section

/-- The program in exact arithmetic. The draws are rationals. -/
def exactProgram : Machine (Program ℝ ℚ) (ProgramCall ℝ ℚ) (Answer ℚ) :=
  program rpow fun u => (u : ℝ)

/-- The generator leads some counter, and the static members of `Zipf` are current. -/
structure Program.Sound (s : Program ℝ ℚ) : Prop where
  current : Current rpow s.statics
  leads : ∃ h, s.global.Leads h

/-- The call of `zipf` with the parameters `n` and `theta`. -/
def ProgramCall.IsZipf (n : Int32) (theta : ℝ) (c : ProgramCall ℝ ℚ) : Prop :=
  ∃ raw now, c = .zipf n theta raw now

/-- The draw of the counter `h`. -/
def drawOf (h : RGenI) : ℝ := (((h.rightWord.toNat : ℚ) * unitCoeff ℚ : ℚ) : ℝ)

section Runs

variable {n : Int32} {theta : ℝ} {h : RGenI}

/-- `zipf`, with the draw of the counter that the generator leads. -/
theorem step_zipf {z : Statics ℝ} {g : RNG.Global ℚ} (hz : Current rpow z) (hg : g.Leads h)
    (hinit : g.initialized = true) (hpos : 0 < theta) (raw : Vector ℚ RGenC.CACHE_SZ) (now : U32) :
    ∃ z' g', exactProgram.step ⟨z, g⟩ (.zipf n theta raw now) =
        (.rank (.ofRank (rank rpow (constants rpow n theta) (drawOf h))), ⟨z', g'⟩) ∧
      Current rpow z' ∧ g'.Leads (next h) ∧ g'.initialized = true := by
  have hpos' : (((0 : ℤ) : ℝ)) < theta := by simpa using hpos
  obtain ⟨hvalue, hsynced⟩ := hg.synced.rand
  have hdraw : (((g.rng.rand g.st).1 : ℚ) : ℝ) = drawOf h := by
    rw [hvalue, RGenI.value, RGenI.toUnitReal, hg.coeff, drawOf]
  obtain ⟨hret, hcurrent⟩ := step_eq hz ⟨n, theta, drawOf h⟩
  rw [recomputed, if_pos hpos'] at hret
  refine ⟨_, ⟨true, g.st, (g.rng.rand g.st).2⟩, ?_, hcurrent, ⟨hg.coeff, hsynced⟩, rfl⟩
  have hget : RNG.get raw now g = g := if_pos hinit
  have hstep : exactProgram.step ⟨z, g⟩ (.zipf n theta raw now) =
      (.rank (Zipf.zipf rpow n theta (drawOf h) z).1,
        ⟨(Zipf.zipf rpow n theta (drawOf h) z).2, ⟨g.initialized, g.st, (g.rng.rand g.st).2⟩⟩) := by
    simp only [exactProgram, program, Program.zipf, if_pos hpos', hget, hdraw]
  rw [hstep, hinit]
  exact congrArg (fun ret => (Answer.rank ret, _)) hret

/-- `zipf` begins with `RNG::get`, and could be called after it as well. -/
theorem step_get (s : Program ℝ ℚ) (hpos : 0 < theta) (raw : Vector ℚ RGenC.CACHE_SZ)
    (now : U32) :
    exactProgram.step s (.zipf n theta raw now) =
      exactProgram.step ⟨s.statics, RNG.get raw now s.global⟩ (.zipf n theta raw now) := by
  have hpos' : (((0 : ℤ) : ℝ)) < theta := by simpa using hpos
  have hget : RNG.get raw now (RNG.get raw now s.global) = RNG.get raw now s.global := by
    by_cases hinit : s.global.initialized = true
    · have hsame : RNG.get raw now s.global = s.global := if_pos hinit
      rw [hsame, hsame]
    · rw [show RNG.get raw now s.global = RNG.initGlobal raw now s.global from if_neg hinit]
      rfl
  simp only [exactProgram, program, Program.zipf, if_pos hpos', hget]

/-- **The ranks of a run** are those of consecutive counters. -/
theorem trace_zipf (hpos : 0 < theta) {cs : List (ProgramCall ℝ ℚ)}
    (hcs : ∀ c ∈ cs, c.IsZipf n theta) :
    ∀ {z : Statics ℝ} {g : RNG.Global ℚ} {h : RGenI}, Current rpow z → g.Leads h →
      g.initialized = true →
      exactProgram.trace ⟨z, g⟩ cs = (List.range cs.length).map fun i =>
        .rank (.ofRank (rank rpow (constants rpow n theta) (drawOf (next^[i] h)))) := by
  induction cs with
  | nil => exact fun _ _ _ => rfl
  | cons c cs ih =>
    intro z g h hz hg hinit
    obtain ⟨raw, now, rfl⟩ := hcs c List.mem_cons_self
    obtain ⟨z', g', hstep, hz', hg', hinit'⟩ := step_zipf (n := n) hz hg hinit hpos raw now
    rw [Machine.trace_cons, hstep, List.length_cons, List.range_succ_eq_map, List.map_cons,
      List.map_map]
    exact congrArg _ (ih (fun c hc => hcs c (List.mem_cons_of_mem _ hc)) hz' hg' hinit')

/-- **Every step keeps the program sound.** -/
theorem sound_step {s : Program ℝ ℚ} (hs : s.Sound) (c : ProgramCall ℝ ℚ) :
    (exactProgram.step s c).2.Sound := by
  obtain ⟨hz, h, hg⟩ := hs
  cases c with
  | zipf n theta raw now =>
    by_cases hpos : 0 < theta
    · obtain ⟨hinit, h', hg'⟩ := hg.get raw now
      obtain ⟨z', g', hstep, hz', hg'', -⟩ := step_zipf (n := n) hz hg' hinit hpos raw now
      rw [step_get s hpos, hstep]
      exact ⟨hz', next h', hg''⟩
    · have hpos' : ¬ (((0 : ℤ) : ℝ)) < theta := by simpa using hpos
      have hstep : exactProgram.step s (.zipf n theta raw now) = (.rank .aborted, s) := by
        simp only [exactProgram, program, Program.zipf, if_neg hpos']
      rw [hstep]
      exact ⟨hz, h, hg⟩
  | rng c raw now =>
    obtain ⟨-, h', hg'⟩ := hg.get raw now
    exact ⟨hz, hg'.call c⟩

theorem sound_exec (raw : Vector ℚ RGenC.CACHE_SZ) (st : DBUtl.Statics ℚ)
    (calls : List (ProgramCall ℝ ℚ)) :
    (exactProgram.exec (Program.start raw st) calls).Sound :=
  Machine.exec_of_step (P := Program.Sound) (fun _ c hs => sound_step hs c) calls
    ⟨Or.inl rfl, _, RNG.Global.Leads.start raw st⟩

/-- From any sound state, the ranks are those of consecutive counters. -/
theorem trace_zipf_of_sound {s : Program ℝ ℚ} (hs : s.Sound) (hpos : 0 < theta)
    {cs : List (ProgramCall ℝ ℚ)} (hcs : ∀ c ∈ cs, c.IsZipf n theta) :
    ∃ h, exactProgram.trace s cs = (List.range cs.length).map fun i =>
      .rank (.ofRank (rank rpow (constants rpow n theta) (drawOf (next^[i] h)))) := by
  obtain ⟨hz, h, hg⟩ := hs
  cases cs with
  | nil => exact ⟨h, rfl⟩
  | cons c cs =>
    obtain ⟨raw, now, rfl⟩ := hcs c List.mem_cons_self
    obtain ⟨hinit, h', hg'⟩ := hg.get raw now
    refine ⟨h', ?_⟩
    rw [← trace_zipf hpos hcs hz hg' hinit, Machine.trace_cons, Machine.trace_cons,
      step_get s hpos raw now]

end Runs

/-! ## Frequencies -/

section Frequencies

variable {st : DBUtl.Statics ℚ} {P : RGenI → Bool}

/-- What is true where `P` is and `Q` is not. -/
theorem frequency_sub {Q S : RGenI → Bool} (hsub : ∀ h, Q h = true → P h = true)
    (hS : ∀ h, S h = true ↔ P h = true ∧ Q h = false) (g : RGenI) :
    frequency st g S = frequency st g P - frequency st g Q := by
  unfold frequency
  generalize Finset.range (2 ^ 64) = cycle
  have hsdiff : cycle.filter (fun i => S (RGenI.after st i g)) =
      cycle.filter (fun i => P (RGenI.after st i g)) \
        cycle.filter fun i => Q (RGenI.after st i g) := by
    ext i
    simp only [Finset.mem_filter, Finset.mem_sdiff, hS, not_and, Bool.not_eq_true]
    tauto
  have hcard := Finset.card_sdiff_add_card_eq_card (s := cycle.filter fun i =>
      Q (RGenI.after st i g)) (t := cycle.filter fun i => P (RGenI.after st i g))
    (Finset.monotone_filter_right _ fun i _ => hsub _)
  rw [← hsdiff] at hcard
  rw [← hcard, Nat.cast_add, add_div, add_sub_cancel_right]

/-- The draws between two ends are as frequent as the ends are apart, up to the error of one. -/
theorem frequency_between {p q : ℝ} (h0 : 0 ≤ p) (hpq : p ≤ q) (h1 : q ≤ 1)
    (hP : ∀ h : RGenI, P h = true ↔ p ≤ drawOf h ∧ drawOf h < q) (g : RGenI) :
    |(frequency st g P : ℝ) - (q - p)| ≤ 1 / 2 ^ 23 := by
  classical
  have hbelow (x : ℝ) (h : RGenI) : decide (drawOf h < x) = true ↔ drawOf h < x :=
    decide_eq_true_iff
  have hsub : frequency st g P = frequency st g (fun h => decide (drawOf h < q)) -
      frequency st g fun h => decide (drawOf h < p) := by
    refine frequency_sub (fun h hlt => ?_) (fun h => ?_) g
    · exact decide_eq_true ((of_decide_eq_true hlt).trans_le hpq)
    · rw [hP, hbelow, decide_eq_false_iff_not, not_lt, and_comm]
  have hnear {x : ℝ} (hx0 : 0 ≤ x) (hx1 : x ≤ 1) :
      x ≤ (frequency st g (fun h => decide (drawOf h < x)) : ℝ) ∧
        (frequency st g (fun h => decide (drawOf h < x)) : ℝ) ≤ x + 1 / 2 ^ 23 := by
    refine frequency_below hx0 hx1 (fun h => ?_) g
    rw [hbelow, drawOf, Rat.cast_mul, Rat.cast_natCast]
  obtain ⟨hq, hq'⟩ := hnear (h0.trans hpq) h1
  obtain ⟨hp, hp'⟩ := hnear h0 (hpq.trans h1)
  rw [hsub, Rat.cast_sub, abs_le]
  constructor <;> linarith

end Frequencies

/-! ## The ranks over a full cycle -/

/-- How many of the calls returned the rank `r`, as a part of the cycle. -/
def rankFrequency (answers : List (Answer ℚ)) (r : ℤ) : ℚ := answers.countP (·.isRank r) / 2 ^ 64

theorem countP_range (N : ℕ) (P : ℕ → Bool) :
    (List.range N).countP P = ((Finset.range N).filter fun i => P i).card := by
  rw [Finset.card_def, Finset.filter_val, Finset.range_val, Multiset.range, Multiset.filter_coe,
    Multiset.coe_card, List.countP_eq_length_filter]
  simp

theorem drawOf_mem (h : RGenI) : 0 ≤ drawOf h ∧ drawOf h < 1 := by
  obtain ⟨h0, h1⟩ : 0 ≤ (h.rightWord.toNat : ℚ) * unitCoeff ℚ ∧
      (h.rightWord.toNat : ℚ) * unitCoeff ℚ < 1 :=
    toUnitReal_mem (show (⟨unitCoeff ℚ, 0⟩ : DBUtl.Statics ℚ).coeff = unitCoeff ℚ from rfl) _
  exact ⟨Rat.cast_nonneg.2 h0, by rw [drawOf]; exact_mod_cast h1⟩

/-- The frequency of a rank is that of the draws in its share. -/
theorem rankFrequency_eq {s : Program ℝ ℚ} (hs : s.Sound) {n : Int32} (h1 : 1 ≤ n.toInt)
    (hn : n ≠ Int32.maxValue) {theta : ℝ} (hpos : 0 < theta) (htheta : theta ≠ 1)
    {cs : List (ProgramCall ℝ ℚ)} (hcs : ∀ c ∈ cs, c.IsZipf n theta) (hlen : cs.length = 2 ^ 64)
    {r : ℕ} (hr : r < n.toInt.toNat) : ∃ (h : RGenI) (P : RGenI → Bool),
      rankFrequency (exactProgram.trace s cs) r = frequency ⟨unitCoeff ℚ, 0⟩ h P ∧
      ∀ h, P h = true ↔ share theta n.toInt.toNat r ≤ drawOf h ∧
        drawOf h < share theta n.toInt.toNat (r + 1) := by
  have hk : 1 ≤ n.toInt.toNat := by omega
  obtain ⟨h, htrace⟩ := trace_zipf_of_sound (n := n) hs hpos hcs
  refine ⟨h, fun h' => Answer.isRank r (D := ℚ)
    (.rank (.ofRank (rank rpow (constants rpow n theta) (drawOf h')))), ?_, fun h' => ?_⟩
  · rw [rankFrequency, htrace, List.countP_map, countP_range, hlen, frequency]
    rfl
  · obtain ⟨h0, hlt⟩ := drawOf_mem h'
    have hrank : rank rpow (constants rpow n theta) (drawOf h') =
        some (invert theta n.toInt.toNat (drawOf h')) :=
      rank_constants hn h1 h0 hlt (Or.inl htheta)
    beta_reduce
    rw [← le_invert_iff hk htheta h0 hlt hr.le, ← not_le (b := drawOf h'),
      ← le_invert_iff hk htheta h0 hlt (Nat.succ_le_of_lt hr), hrank]
    simp only [Answer.isRank, Ret.ofRank, decide_eq_true_eq, Ret.returned.injEq]
    push_cast
    omega

/-- **`zipf` draws the ranks as often as their shares say.** After any calls of `zipf` and any uses
of the global generator, `2 ^ 64` further calls with the parameters `n` and `theta` return each rank
`r` with a frequency that differs from its share by `2⁻²³` at most. For the first two ranks that is
the Zipf distribution. -/
theorem zipf_frequencies (raw : Vector ℚ RGenC.CACHE_SZ) (st : DBUtl.Statics ℚ)
    (calls : List (ProgramCall ℝ ℚ)) (n : Int32) (h1 : 1 ≤ n.toInt) (hn : n ≠ Int32.maxValue)
    (theta : ℝ) (hpos : 0 < theta) (htheta : theta ≠ 1) (cs : List (ProgramCall ℝ ℚ))
    (hcs : ∀ c ∈ cs, c.IsZipf n theta) (hlen : cs.length = 2 ^ 64) :
    let answers := exactProgram.trace (exactProgram.exec (Program.start raw st) calls) cs
    let k := n.toInt.toNat
    (∀ r < k, |(rankFrequency answers r : ℝ) - (share theta k (r + 1) - share theta k r)| ≤
      1 / 2 ^ 23) ∧
    |(rankFrequency answers 0 : ℝ) - 1 / zetaSum theta k| ≤ 1 / 2 ^ 23 ∧
    (2 ≤ k → |(rankFrequency answers 1 : ℝ) - (1 / 2) ^ theta / zetaSum theta k| ≤
      1 / 2 ^ 23) := by
  intro answers k
  have hk : 1 ≤ k := by omega
  have hfreq (r : ℕ) (hr : r < k) :
      |(rankFrequency answers r : ℝ) - (share theta k (r + 1) - share theta k r)| ≤
        1 / 2 ^ 23 := by
    obtain ⟨h, P, heq, hP⟩ := rankFrequency_eq (sound_exec raw st calls) h1 hn hpos htheta hcs
      hlen hr
    have hlast : share theta k k = 1 := share_last hk htheta
    have hlo : 0 ≤ share theta k r := by
      rcases Nat.eq_zero_or_pos r with rfl | hr0
      · exact share_zero.ge
      · exact share_zero.ge.trans (share_lt htheta hr0 hr.le).le
    have hhi : share theta k (r + 1) ≤ 1 := by
      rcases Nat.lt_or_ge (r + 1) k with hr1 | hr1
      · exact (share_lt htheta hr1 le_rfl).le.trans hlast.le
      · rw [show r + 1 = k by omega, hlast]
    rw [heq]
    exact frequency_between hlo (share_succ htheta hr).le hhi hP h
  refine ⟨hfreq, ?_, fun htwo => ?_⟩
  · have hzero := hfreq 0 hk
    rwa [share_one, share_zero, sub_zero] at hzero
  · have hone := hfreq 1 htwo
    rwa [share_two, share_one, zetaSum_two, ← sub_div, add_sub_cancel_left] at hone

/-- The last of ten ranks, after a call with other parameters and after the rest of the program has
seeded and used the generator. -/
theorem zipf_frequencies_ten :
    let raw : Vector ℚ RGenC.CACHE_SZ := Vector.replicate 4 0
    let calls : List (ProgramCall ℝ ℚ) :=
      [.zipf 20 (1 / 3) raw 1, .rng (.setSeed 5 1) raw 1, .rng .rand raw 1]
    |(rankFrequency (exactProgram.trace (exactProgram.exec (Program.start raw ⟨0, 0⟩) calls)
        (List.replicate (2 ^ 64) (.zipf 10 (1 / 2) raw 1))) (9 : ℕ) : ℝ) -
      (share (1 / 2) 10 10 - share (1 / 2) 10 9)| ≤ 1 / 2 ^ 23 := by
  intro raw calls
  have hfreq := zipf_frequencies raw ⟨0, 0⟩ calls 10 (by decide) (by decide) (1 / 2) (by norm_num)
    (by norm_num) (List.replicate (2 ^ 64) (.zipf 10 (1 / 2) raw 1))
    (fun c hc => ⟨_, _, List.eq_of_mem_replicate hc⟩) List.length_replicate
  exact hfreq.1 9 (by decide)

end

end Zipf

end DBUtl
