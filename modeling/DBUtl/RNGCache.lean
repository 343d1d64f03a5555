import DBUtl.Lib.Prefetch
import DBUtl.RNGWord
import Mathlib.Data.BitVec

/-!
# The caching generator against the inline one

`RGenC` draws four values at a time and hands them out one by one, so its inner counter is ahead
of the position a caller sees. `Synced st c g` says that the cache of `c` holds the values of the
inline generator from the logical state `g` on, and that the inner counter is the state after
them. Every draw keeps it, across refills and at any fill level.

* `rng_trace_eq_rngSmall` — `RNG` and `RNGSmall` answer alike as long as the inner counter has
  not been run past the end of the 40-bit positions when the seed or the position is asked for
  or the position is moved; and the first such call made too late is exposed by a `getSeed`.
* `rng_draws_after_setSeed` — after `setSeed` the draws are the documented sequence from its
  start, whatever came before.

`getPos` takes the lead off the inner position, but not across the carry into the identifier, and
`getSeed` and `setPos` do not take it into account at all.
-/

namespace DBUtl

open RGenI (next)

variable {R : Type*} [Double R]

namespace RGenC

/-! ## The cache and the logical state -/

/-- The cache of `c` leads the logical state `g`. -/
def Synced (st : Statics R) (c : RGenC R) (g : RGenI) : Prop :=
  Prefetch.Leads next (RGenI.value st) c.cache c.ix g c.gen

/-- The loop of `_fill` is the filling of a prefetch buffer. -/
theorem fillFrom_eq (st : Statics R) (i : ℕ) (h : i ≤ CACHE_SZ) (cache : Vector R CACHE_SZ)
    (gen : RGenI) :
    fillFrom st i h cache gen = Prefetch.fillFrom next (RGenI.value st) i h cache gen := by
  induction i generalizing cache gen with
  | zero => rfl
  | succ i ih => exact ih _ _ _

theorem Synced.fill {st : Statics R} {c : RGenC R} {g : RGenI} (h : Synced st c g)
    (hix : c.ix = 0) : Synced st (c.fill st) g := by
  obtain ⟨gen, cache, ix, hle⟩ := c
  obtain rfl : ix = 0 := hix
  obtain rfl : gen = g := h.ahead_of_zero
  show Prefetch.Leads next (RGenI.value st) (fillFrom st CACHE_SZ le_rfl cache gen).1 CACHE_SZ gen
    (fillFrom st CACHE_SZ le_rfl cache gen).2
  rw [fillFrom_eq]
  exact Prefetch.leads_fillFrom CACHE_SZ le_rfl cache gen

theorem Synced.pop {st : Statics R} {c : RGenC R} {g : RGenI} (h : Synced st c g)
    (hix : 0 < c.ix) : (c.pop hix).1 = g.value st ∧ Synced st (c.pop hix).2 (next g) := by
  obtain ⟨gen, cache, ix, hle⟩ := c
  obtain ⟨j, rfl⟩ : ∃ j, ix = j + 1 := ⟨ix - 1, by simp only at hix; omega⟩
  obtain ⟨htop, hrest⟩ := Prefetch.Leads.pop h
  exact ⟨Vector.getElem_eq_iff.2 htop, hrest⟩

/-- **A draw from the cache is a draw from the logical state**, whatever the fill level. -/
theorem Synced.rand {st : Statics R} {c : RGenC R} {g : RGenI} (h : Synced st c g) :
    (c.rand st).1 = g.value st ∧ Synced st (c.rand st).2 (next g) := by
  unfold RGenC.rand
  split
  · exact (h.fill ‹_›).pop _
  · exact h.pop _

/-- Setting the position empties the cache, so the logical state is the inner one. -/
theorem synced_setPos (st : Statics R) (c : RGenC R) (p : U64) :
    Synced st (c.setPos p) (c.gen.setPos p) := Prefetch.Leads.empty _ _

/-! ## Seed and position -/

theorem Synced.toNat_gen {st : Statics R} {c : RGenC R} {g : RGenI} (h : Synced st c g) :
    c.gen.data.toNat = (g.data.toNat + c.ix) % 2 ^ 64 := by
  rw [h.ahead_eq, RGenI.toNat_next_iterate]

/-- The inner counter has not run past the end of a sequence that the logical state is still in:
its position is at least the number of values read ahead. -/
def InSequence (c : RGenC R) : Prop := c.ix ≤ c.gen.getPos.toNat

/-- In the same sequence means with the same identifier. -/
theorem Synced.inSequence_iff {st : Statics R} {c : RGenC R} {g : RGenI} (h : Synced st c g) :
    c.InSequence ↔ c.getSeed = g.getSeed := by
  have hgen := h.toNat_gen
  have hix : c.ix ≤ 4 := c.ix_le
  have hg := g.data.isLt
  rw [InSequence, RGenI.toNat_getPos, getSeed, ← BitVec.toNat_inj, RGenI.toNat_getSeed,
    RGenI.toNat_getSeed]
  omega

theorem Synced.getPos {st : Statics R} {c : RGenC R} {g : RGenI} (h : Synced st c g)
    (hin : c.InSequence) : c.getPos = g.getPos := by
  have hgen := h.toNat_gen
  have hix : c.ix ≤ 4 := c.ix_le
  have hg := g.data.isLt
  rw [InSequence, RGenI.toNat_getPos] at hin
  apply BitVec.eq_of_toNat_eq
  rw [RGenC.getPos, BitVec.toNat_sub, BitVec.toNat_ofNat, RGenI.toNat_getPos, RGenI.toNat_getPos]
  omega

theorem Synced.setPos {st : Statics R} {c : RGenC R} {g : RGenI} (h : Synced st c g)
    (hin : c.InSequence) (p : U64) : Synced st (c.setPos p) (g.setPos p) := by
  have hseed := congrArg BitVec.toNat (h.inSequence_iff.1 hin)
  rw [RGenC.getSeed, RGenI.toNat_getSeed, RGenI.toNat_getSeed] at hseed
  have : c.gen.setPos p = g.setPos p := by
    have := RGenI.toNat_setPos p c.gen
    rw [hseed, ← RGenI.toNat_setPos] at this
    cases hc : c.gen.setPos p; cases hd : g.setPos p
    simpa [hc, hd, BitVec.toNat_inj] using this
  rw [← this]
  exact synced_setPos st c p

end RGenC

/-! ## Runs of `RNG` and of `RNGSmall` -/

section Runs

variable {st : Statics R} {c : RGenC R} {g : RGenI}

/-- The call replaces the sequence identifier. -/
def Call.reseeds : Call → Bool
  | .setSeed _ _ => true
  | _ => false

/-- The real a method returned, if it returned one. -/
def Ret.real? : Ret R → Option R
  | .real x => some x
  | _ => none

/-- A call that looks at the seed or the position, or moves the position, is made while the
inner counter is still in the sequence of the logical state. A draw may be made at any time. -/
def InSequenceAt (s : Statics R × RGenC R) : Call → Prop
  | .rand => True
  | _ => s.2.InSequence

/-- The states of the two generators agree: same statics, and the cache leads the counter. -/
def Agree (s : Statics R × RGenC R) (t : Statics R × RGenI) : Prop :=
  s.1 = t.1 ∧ RGenC.Synced s.1 s.2 t.2

/-- **One call.** Agreeing generators answer it alike and still agree. -/
theorem agree_step {s : Statics R × RGenC R} {t : Statics R × RGenI} {call : Call}
    (h : Agree s t) (hok : call.reseeds = false ∧ InSequenceAt s call) :
    ((TRNG R (RGenC R)).step s call).1 = ((TRNG R RGenI).step t call).1 ∧
      Agree ((TRNG R (RGenC R)).step s call).2 ((TRNG R RGenI).step t call).2 := by
  obtain ⟨st, c⟩ := s
  obtain ⟨_, g⟩ := t
  obtain ⟨rfl, hs⟩ := h
  obtain ⟨hseed, hin⟩ := hok
  cases call with
  | rand => exact ⟨congrArg Ret.real hs.rand.1, rfl, hs.rand.2⟩
  | setpos p => exact ⟨rfl, rfl, hs.setPos hin p⟩
  | getPos => exact ⟨congrArg Ret.pos (hs.getPos hin), rfl, hs⟩
  | getSeed => exact ⟨congrArg Ret.seed (hs.inSequence_iff.1 hin), rfl, hs⟩
  | setSeed s now => simp [Call.reseeds] at hseed

/-- Away from draws and reseeding, no call changes what `getSeed` returns. -/
theorem getSeed_step_cache (call : Call) (hseed : call.reseeds = false) (hrand : call ≠ .rand) :
    ((TRNG R (RGenC R)).step (st, c) call).2.2.getSeed = c.getSeed := by
  cases call with
  | rand => exact absurd rfl hrand
  | setpos p => exact RGenI.getSeed_setPos p c.gen
  | getPos | getSeed => rfl
  | setSeed s now => simp [Call.reseeds] at hseed

theorem getSeed_step_small (call : Call) (hseed : call.reseeds = false) (hrand : call ≠ .rand) :
    ((TRNG R RGenI).step (st, g) call).2.2.getSeed = g.getSeed := by
  cases call with
  | rand => exact absurd rfl hrand
  | setpos p => exact RGenI.getSeed_setPos p g
  | getPos | getSeed => rfl
  | setSeed s now => simp [Call.reseeds] at hseed

/-- A call made after the inner counter has left the sequence is exposed by the next
`getSeed`. -/
theorem trace_ne_of_not_inSequence {s : Statics R × RGenC R} {t : Statics R × RGenI} {call : Call}
    (h : Agree s t) (hseed : call.reseeds = false) (hout : ¬ InSequenceAt s call) :
    (TRNG R (RGenC R)).trace s [call, .getSeed] ≠ (TRNG R RGenI).trace t [call, .getSeed] := by
  obtain ⟨st, c⟩ := s
  obtain ⟨_, g⟩ := t
  obtain ⟨rfl, hs⟩ := h
  have hrand : call ≠ .rand := by rintro rfl; exact hout trivial
  have hne : ¬ c.InSequence := by cases call <;> first | exact absurd rfl hrand | exact hout
  intro heq
  have hlast : Ret.seed (R := R) ((TRNG R (RGenC R)).step (st, c) call).2.2.getSeed =
      Ret.seed ((TRNG R RGenI).step (st, g) call).2.2.getSeed :=
    (List.cons.inj (List.cons.inj heq).2).1
  rw [getSeed_step_cache call hseed hrand, getSeed_step_small call hseed hrand] at hlast
  exact hne (hs.inSequence_iff.2 (Ret.seed.inj hlast))

end Runs

/-! ## Construction -/

theorem RNG.new_eq (raw : Vector R RGenC.CACHE_SZ) (st : Statics R) (now : U32) {s : U32}
    (hs : s ≠ 0) : RNG.new raw st now s =
      (⟨unitCoeff R, st.seed⟩, ⟨RGenI.start s, raw, 0, Nat.zero_le _⟩) := by
  rw [RNG.new, show s ^^^ 0 = s from BitVec.xor_zero,
    ← RGenI.setPos_zero_setSeed now hs ⟨RGenI.INIT_DATA⟩]
  rfl

theorem RNGSmall.new_eq (st : Statics R) (now : U32) {s : U32} (hs : s ≠ 0) :
    RNGSmall.new st now s = (⟨unitCoeff R, st.seed⟩, RGenI.start s) := by
  rw [RNGSmall.new, show s ^^^ 0 = s from BitVec.xor_zero, ← RGenI.setSeed_init now hs]
  rfl

/-- The two constructors leave the generators in agreement. -/
theorem agree_new (raw : Vector R RGenC.CACHE_SZ) (st : Statics R) (now : U32) {s : U32}
    (hs : s ≠ 0) : Agree (RNG.new raw st now s) (RNGSmall.new st now s) := by
  rw [RNG.new_eq raw st now hs, RNGSmall.new_eq st now hs]
  exact ⟨rfl, Prefetch.Leads.empty _ _⟩

theorem ne_zero_of_low {s : U32} (hs : s.toNat % 2 ^ 24 ≠ 0) : s ≠ 0 := by
  rintro rfl
  exact hs rfl

/-! ## `RNG` against `RNGSmall` -/

/-- **`RNG` and `RNGSmall` answer alike while the cache stays in the sequence**, and no longer:
the first call made out of sequence is exposed by the `getSeed` after it. -/
theorem rng_trace_eq_rngSmall (raw : Vector R RGenC.CACHE_SZ) (st : Statics R) (now s : U32)
    (hs : s.toNat % 2 ^ 24 ≠ 0) (calls : List Call)
    (hcalls : ∀ call ∈ calls, call.reseeds = false) :
    ((TRNG R (RGenC R)).Along InSequenceAt (RNG.new raw st now s) calls →
      (TRNG R (RGenC R)).trace (RNG.new raw st now s) calls =
        (TRNG R RGenI).trace (RNGSmall.new st now s) calls) ∧
    ∀ call : Call, call.reseeds = false →
      (TRNG R (RGenC R)).Along InSequenceAt (RNG.new raw st now s) calls →
      ¬ InSequenceAt ((TRNG R (RGenC R)).exec (RNG.new raw st now s) calls) call →
      (TRNG R (RGenC R)).trace (RNG.new raw st now s) (calls ++ [call, .getSeed]) ≠
        (TRNG R RGenI).trace (RNGSmall.new st now s) (calls ++ [call, .getSeed]) := by
  have hrun (hin : (TRNG R (RGenC R)).Along InSequenceAt (RNG.new raw st now s) calls) :=
    Machine.sim_run (fun _ _ _ => agree_step) calls (agree_new raw st now (ne_zero_of_low hs))
      ((Machine.along_of_forall (fun i hi _ => hcalls i hi) _).and hin)
  refine ⟨fun hin => (hrun hin).1, fun call hcall hin hout heq => ?_⟩
  obtain ⟨htr, hend⟩ := hrun hin
  rw [Machine.trace_append, Machine.trace_append, htr] at heq
  exact trace_ne_of_not_inSequence hend hcall hout (List.append_cancel_left heq)

/-- Both halves at work around the end of sequence `1`. -/
theorem rng_trace_eq_rngSmall_one :
    (TRNG ℚ (RGenC ℚ)).trace (RNG.new (Vector.replicate 4 0) ⟨0, RGenI.INIT_SEED⟩ 0 1)
        [.rand, .getPos] =
      (TRNG ℚ RGenI).trace (RNGSmall.new ⟨0, RGenI.INIT_SEED⟩ 0 1) [.rand, .getPos] ∧
    (TRNG ℚ (RGenC ℚ)).trace (RNG.new (Vector.replicate 4 0) ⟨0, RGenI.INIT_SEED⟩ 0 1)
        [.setpos (2 ^ 40 - 2), .rand, .setpos 0, .getSeed] ≠
      (TRNG ℚ RGenI).trace (RNGSmall.new ⟨0, RGenI.INIT_SEED⟩ 0 1)
        [.setpos (2 ^ 40 - 2), .rand, .setpos 0, .getSeed] := by
  have h1 := rng_trace_eq_rngSmall (R := ℚ) (Vector.replicate 4 0) ⟨0, RGenI.INIT_SEED⟩ 0 1
    (by decide) [.rand, .getPos] (by decide)
  have h2 := rng_trace_eq_rngSmall (R := ℚ) (Vector.replicate 4 0) ⟨0, RGenI.INIT_SEED⟩ 0 1
    (by decide) [.setpos (2 ^ 40 - 2), .rand] (by decide)
  rw [RNG.new_eq _ _ _ (by decide)] at h1 h2 ⊢
  refine ⟨h1.1 ⟨trivial, ?_, trivial⟩, h2.2 (.setpos 0) rfl ⟨?_, trivial, trivial⟩ ?_⟩
  · show (3 : ℕ) ≤ 4
    decide
  · exact Nat.zero_le _
  · show ¬ (3 : ℕ) ≤ 2
    decide

/-- At the end of a sequence they part: after `setpos(2⁴⁰ - 2)` and one draw, `RNG` answers
`getSeed` with `2` and `RNGSmall` with `1`. -/
theorem rng_trace_ne_rngSmall :
    ¬ ∀ (raw : Vector ℚ RGenC.CACHE_SZ) (st : Statics ℚ) (now s : U32), s.toNat % 2 ^ 24 ≠ 0 →
      ∀ calls : List Call, (∀ call ∈ calls, call.reseeds = false) →
        (TRNG ℚ (RGenC ℚ)).trace (RNG.new raw st now s) calls =
          (TRNG ℚ RGenI).trace (RNGSmall.new st now s) calls := by
  intro h
  have h1 := h (Vector.replicate 4 0) ⟨0, RGenI.INIT_SEED⟩ 0 1 (by decide)
    [.setpos (2 ^ 40 - 2), .rand, .getSeed] (by decide)
  rw [RNG.new_eq _ _ _ (by decide), RNGSmall.new_eq _ _ (by decide)] at h1
  have h2 : (some (Ret.seed 2) : Option (Ret ℚ)) = some (Ret.seed 1) := congrArg (·[2]?) h1
  simp at h2

/-! ## Reseeding -/

/-- No call of a caching generator writes a static member. -/
theorem statics_exec (s : Statics R × RGenC R) (calls : List Call) :
    ((TRNG R (RGenC R)).exec s calls).1 = s.1 :=
  Machine.exec_eq_of_step (f := Prod.fst) (fun _ call => by cases call <;> rfl) s calls

/-- Whatever is called, the cache leads some logical state. -/
theorem exists_synced_exec (raw : Vector R RGenC.CACHE_SZ) (st : Statics R) (calls : List Call) :
    ∃ g, RGenC.Synced ((TRNG R (RGenC R)).exec (RGenC.new raw st) calls).1
      ((TRNG R (RGenC R)).exec (RGenC.new raw st) calls).2 g := by
  have hnew : ∃ g, RGenC.Synced (RGenC.new raw st).1 (RGenC.new raw st).2 g :=
    ⟨_, Prefetch.Leads.empty _ _⟩
  refine Machine.exec_of_step (P := fun s : Statics R × RGenC R => ∃ g, RGenC.Synced s.1 s.2 g)
    ?_ calls hnew
  rintro s call ⟨g, hg⟩
  cases call with
  | rand => exact ⟨next g, hg.rand.2⟩
  | setpos p => exact ⟨_, RGenC.synced_setPos s.1 s.2 p⟩
  | getPos => exact ⟨g, hg⟩
  | getSeed => exact ⟨g, hg⟩
  | setSeed t now => exact ⟨_, Prefetch.Leads.empty _ _⟩

/-- `RNG(s1, s2)` is `RNG()` followed by `setSeed(s1 ^ s2)`. -/
theorem RNG.new_eq_exec (raw : Vector R RGenC.CACHE_SZ) (st : Statics R) (now s1 s2 : U32) :
    RNG.new raw st now s1 s2 =
      (TRNG R (RGenC R)).exec (RGenC.new raw st) [.setSeed (s1 ^^^ s2) now] := rfl

/-- **The draws of a synced cache**, with any number of looks at the seed and the position in
between, are the values of the logical state and of its successors. -/
theorem draws_of_synced {st : Statics R} {c : RGenC R} {g : RGenI} (h : RGenC.Synced st c g)
    (calls : List Call)
    (hcalls : ∀ call ∈ calls, call = .rand ∨ call = .getPos ∨ call = .getSeed) :
    ((TRNG R (RGenC R)).trace (st, c) calls).filterMap Ret.real? =
      (List.range (calls.count .rand)).map fun i => (next^[i] g).value st := by
  induction calls generalizing c g with
  | nil => rfl
  | cons call calls ih =>
    have hrest := fun i hi => hcalls i (List.mem_cons_of_mem call hi)
    obtain rfl | rfl | rfl := hcalls call List.mem_cons_self
    · have hx : ((TRNG R (RGenC R)).step (st, c) .rand).1.real? = some (g.value st) :=
        congrArg some h.rand.1
      rw [Machine.trace_cons, List.filterMap_cons_some hx, List.count_cons_self,
        List.range_succ_eq_map, List.map_cons, List.map_map]
      exact congrArg (g.value st :: ·) (ih h.rand.2 hrest)
    · exact ih h hrest
    · exact ih h hrest

/-- **Reseeding restarts the documented sequence.** After any calls of an `RNG`, the draws that
follow `setSeed(s)` are the hashes of `s` in the high 24 bits and `0`, `1`, `2`, … in the rest. -/
theorem rng_draws_after_setSeed (raw : Vector R RGenC.CACHE_SZ) (st : Statics R)
    (calls : List Call) (s now : U32) (hs : s.toNat % 2 ^ 24 ≠ 0) (after : List Call)
    (hafter : ∀ call ∈ after, call = .rand ∨ call = .getPos ∨ call = .getSeed) :
    ((TRNG R (RGenC R)).trace
        ((TRNG R (RGenC R)).exec (RGenC.new raw st) (calls ++ [.setSeed s now]))
        after).filterMap Ret.real? =
      (List.range (after.count .rand)).map fun i =>
        let d : U64 := BitVec.ofNat 64 ((s.toNat % 2 ^ 24) <<< 40 + i)
        RGenI.toUnitReal ⟨unitCoeff R, st.seed⟩
          (RGenI.hash64to32 ((d >>> 32).setWidth 32) (d.setWidth 32)) := by
  rw [Machine.exec_append]
  have hst := statics_exec (RGenC.new raw st) calls
  generalize (TRNG R (RGenC R)).exec (RGenC.new raw st) calls = x at hst ⊢
  obtain ⟨_, c⟩ := x
  obtain rfl : _ = (⟨unitCoeff R, st.seed⟩ : Statics R) := hst
  have hsync : RGenC.Synced ⟨unitCoeff R, st.seed⟩ (c.setSeed now s) (RGenI.start s) := by
    rw [← RGenI.setPos_zero_setSeed now (ne_zero_of_low hs) c.gen]
    exact Prefetch.Leads.empty _ _
  rw [show (TRNG R (RGenC R)).exec (⟨unitCoeff R, st.seed⟩, c) [.setSeed s now] =
    (⟨unitCoeff R, st.seed⟩, c.setSeed now s) from rfl, draws_of_synced hsync after hafter]
  refine List.map_congr_left fun i _ => ?_
  rw [RGenI.next_iterate, RGenI.start, Nat.shiftLeft_eq, BitVec.ofNat_add]
  rfl

/-- Two draws into sequence `7`, from a cache that held three stale values. -/
theorem rng_draws_after_setSeed_seven :
    ((TRNG ℚ (RGenC ℚ)).trace
        ((TRNG ℚ (RGenC ℚ)).exec (RGenC.new (Vector.replicate 4 0) ⟨0, RGenI.INIT_SEED⟩)
          ([.setpos 5, .rand] ++ [.setSeed 7 0])) [.rand, .getPos, .rand]).filterMap Ret.real? =
      (List.range 2).map fun i =>
        let d : U64 := BitVec.ofNat 64 (7 <<< 40 + i)
        RGenI.toUnitReal ⟨unitCoeff ℚ, RGenI.INIT_SEED⟩
          (RGenI.hash64to32 ((d >>> 32).setWidth 32) (d.setWidth 32)) :=
  rng_draws_after_setSeed _ _ _ 7 0 (by decide) _ (by decide)

end DBUtl
