import DBUtl.RNGMin

/-!
# Reseeding in mid-run

`RGenI::setSeed` replaces the identifier and keeps the position; `RGenC::setSeed` also goes back to
position `0`. After `n` draws the two are at the same place only if the `n` draws have brought the
position of `RGenI` round to `0`. Anywhere else they draw different sequences, since the draws tell
the state.
-/

namespace DBUtl

open RGenI (next)

variable {R : Type*} [Double R]

/-! ## Runs of draws -/

theorem exec_draws_small (st : Statics R) (n : ℕ) (g : RGenI) :
    (TRNG R RGenI).exec (st, g) (List.replicate n .rand) = (st, next^[n] g) := by
  induction n generalizing g with
  | zero => rfl
  | succ n ih =>
    rw [List.replicate_succ, Machine.exec_cons, Function.iterate_succ_apply]
    exact ih (next g)

/-- Draws from a synced cache are those of the logical state. -/
theorem trace_draws_cache {st : Statics R} {c : RGenC R} {g : RGenI} (h : RGenC.Synced st c g)
    (n : ℕ) :
    (TRNG R (RGenC R)).trace (st, c) (List.replicate n .rand) =
      (TRNG R RGenI).trace (st, g) (List.replicate n .rand) := by
  have hagree : Agree (st, c) (st, g) := ⟨rfl, h⟩
  have hok (call : Call) (hcall : call ∈ List.replicate n .rand) (s : Statics R × RGenC R) :
      call.reseeds = false ∧ InSequenceAt s call := by
    rw [List.eq_of_mem_replicate hcall]
    exact ⟨rfl, trivial⟩
  exact (Machine.sim_run (fun _ _ _ => agree_step) _ hagree (Machine.along_of_forall hok _)).1

/-! ## After `n` draws and `setSeed(t)` -/

section Reseed

variable (raw : Vector R RGenC.CACHE_SZ) (st : Statics R) (now now' : U32) {s t : U32} (n : ℕ)

/-- `RNGSmall` is in sequence `t`, at the position of its first `n` draws. -/
theorem exec_reseed_small (hs : s ≠ 0) (ht : t ≠ 0) :
    ∃ g : RGenI, (TRNG R RGenI).exec (RNGSmall.new st now s)
        (List.replicate n Call.rand ++ [.setSeed t now']) = (⟨unitCoeff R, st.seed⟩, g) ∧
      g.data.toNat = t.toNat % 2 ^ 24 * 2 ^ 40 + n % 2 ^ 40 := by
  refine ⟨(next^[n] (RGenI.start s)).setSeed now' t, ?_, ?_⟩
  · rw [RNGSmall.new_eq st now hs, Machine.exec_append, exec_draws_small]
    rfl
  · rw [RGenI.toNat_setSeed now' ht, RGenI.toNat_next_iterate, RGenI.toNat_start]
    omega

/-- `RNG` is at the start of sequence `t`, with an empty cache. -/
theorem exec_reseed_cache (hs : s ≠ 0) (ht : t ≠ 0) :
    ∃ c : RGenC R, (TRNG R (RGenC R)).exec (RNG.new raw st now s)
        (List.replicate n Call.rand ++ [.setSeed t now']) = (⟨unitCoeff R, st.seed⟩, c) ∧
      RGenC.Synced ⟨unitCoeff R, st.seed⟩ c (RGenI.start t) := by
  rw [RNG.new_eq raw st now hs, Machine.exec_append]
  have hst := statics_exec ((⟨unitCoeff R, st.seed⟩, ⟨RGenI.start s, raw, 0, Nat.zero_le _⟩) :
    Statics R × RGenC R) (List.replicate n .rand)
  generalize (TRNG R (RGenC R)).exec _ (List.replicate n .rand) = x at hst ⊢
  obtain ⟨_, c⟩ := x
  obtain rfl := hst
  refine ⟨c.setSeed now' t, rfl, ?_⟩
  rw [← RGenI.setPos_zero_setSeed now' ht c.gen]
  exact Prefetch.Leads.empty _ _

end Reseed

/-- In any arithmetic that keeps the words apart. -/
theorem reseeded_trace_eq_iff (hR : WordsApart R) (raw : Vector R RGenC.CACHE_SZ)
    (st : Statics R) (now now' s t : U32) (hs : s.toNat % 2 ^ 24 ≠ 0)
    (ht : t.toNat % 2 ^ 24 ≠ 0) (n : ℕ) :
    (∀ m, (TRNG R (RGenC R)).trace ((TRNG R (RGenC R)).exec (RNG.new raw st now s)
          (List.replicate n Call.rand ++ [.setSeed t now'])) (List.replicate m .rand) =
        (TRNG R RGenI).trace ((TRNG R RGenI).exec (RNGSmall.new st now s)
          (List.replicate n Call.rand ++ [.setSeed t now'])) (List.replicate m .rand)) ↔
      2 ^ 40 ∣ n := by
  obtain ⟨g, hsmall, hg⟩ :=
    exec_reseed_small (R := R) st now now' n (ne_zero_of_low hs) (ne_zero_of_low ht)
  obtain ⟨c, hcache, hc⟩ :=
    exec_reseed_cache raw st now now' n (ne_zero_of_low hs) (ne_zero_of_low ht)
  have hstart : (RGenI.start t).data = g.data ↔ 2 ^ 40 ∣ n := by
    rw [← BitVec.toNat_inj, RGenI.toNat_start, hg, Nat.dvd_iff_mod_eq_zero]
    omega
  simp only [hsmall, hcache, trace_draws_cache hc, ← hstart]
  constructor
  · intro h
    exact (data_eq_of_trace hR rfl h).symm
  · intro h m
    rw [RGenI.ext_toNat (congrArg BitVec.toNat h)]

/-- **Reseeded after `n` draws, `RNG` and `RNGSmall` draw the same sequence only if `n` is a
multiple of `2⁴⁰`.** -/
theorem reseed_trace_eq_iff (raw : Vector ℚ RGenC.CACHE_SZ) (st : Statics ℚ) (now now' s t : U32)
    (hs : s.toNat % 2 ^ 24 ≠ 0) (ht : t.toNat % 2 ^ 24 ≠ 0) (n : ℕ) :
    (∀ m, (TRNG ℚ (RGenC ℚ)).trace ((TRNG ℚ (RGenC ℚ)).exec (RNG.new raw st now s)
          (List.replicate n Call.rand ++ [.setSeed t now'])) (List.replicate m .rand) =
        (TRNG ℚ RGenI).trace ((TRNG ℚ RGenI).exec (RNGSmall.new st now s)
          (List.replicate n Call.rand ++ [.setSeed t now'])) (List.replicate m .rand)) ↔
      2 ^ 40 ∣ n :=
  reseeded_trace_eq_iff wordsApart_rat raw st now now' s t hs ht n

/-- Reseeded at once. -/
theorem reseed_trace_eq_iff_zero :
    (∀ m, (TRNG ℚ (RGenC ℚ)).trace ((TRNG ℚ (RGenC ℚ)).exec
          (RNG.new (Vector.replicate 4 0) ⟨0, 0⟩ 0 1)
          (List.replicate 0 Call.rand ++ [.setSeed 2 0])) (List.replicate m .rand) =
        (TRNG ℚ RGenI).trace ((TRNG ℚ RGenI).exec (RNGSmall.new ⟨0, 0⟩ 0 1)
          (List.replicate 0 Call.rand ++ [.setSeed 2 0])) (List.replicate m .rand)) ↔
      2 ^ 40 ∣ 0 :=
  reseed_trace_eq_iff (Vector.replicate 4 0) ⟨0, 0⟩ 0 0 1 2 (by decide) (by decide) 0

/-- After one draw, the next draw of `RNG` is at position `0`, that of `RNGSmall` at `1`. -/
theorem reseed_trace_ne :
    ¬ ∀ (raw : Vector ℚ RGenC.CACHE_SZ) (st : Statics ℚ) (now now' s t : U32),
      s.toNat % 2 ^ 24 ≠ 0 → t.toNat % 2 ^ 24 ≠ 0 → ∀ n m,
        (TRNG ℚ (RGenC ℚ)).trace ((TRNG ℚ (RGenC ℚ)).exec (RNG.new raw st now s)
            (List.replicate n Call.rand ++ [.setSeed t now'])) (List.replicate m .rand) =
          (TRNG ℚ RGenI).trace ((TRNG ℚ RGenI).exec (RNGSmall.new st now s)
            (List.replicate n Call.rand ++ [.setSeed t now'])) (List.replicate m .rand) := by
  intro h
  have h1 := h (Vector.replicate 4 0) ⟨0, 0⟩ 0 0 1 2 (by decide) (by decide) 1 1
  obtain ⟨g, hsmall, hg⟩ :=
    exec_reseed_small (R := ℚ) ⟨0, 0⟩ 0 0 1 (s := 1) (t := 2) (by decide) (by decide)
  obtain ⟨c, hcache, hc⟩ := exec_reseed_cache (R := ℚ) (Vector.replicate 4 0) ⟨0, 0⟩ 0 0 1
    (s := 1) (t := 2) (by decide) (by decide)
  obtain rfl : g = ⟨0x20000000001⟩ := RGenI.ext_toNat hg
  rw [hsmall, hcache, trace_draws_cache hc] at h1
  have hval : (RGenI.start 2).value ⟨unitCoeff ℚ, 0⟩ =
      (RGenI.mk 0x20000000001).value ⟨unitCoeff ℚ, 0⟩ := Ret.real.inj (List.cons.inj h1).1
  exact absurd (rightWord_eq_of_value wordsApart_rat rfl hval) (by decide)

end DBUtl
