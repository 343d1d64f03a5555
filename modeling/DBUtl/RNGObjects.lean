import DBUtl.Lib.Noninterference
import DBUtl.RNG

/-!
# Generators side by side

Any number of generators, each an `RNG`, an `RNGSmall` or an `RNGMin`, in one program. Two static
members lie behind them. `_coeff` is read by every draw and written by constructors only.
`RGenO::_seed` is what `setSeed` of an `RNGMin` writes and `getSeed` of an `RNGMin` reads: all of
them share it. So the calls on an object are isolated from the others unless it is an `RNGMin`, and
then too, as long as no `getSeed` of it finds the seed of another.
-/

namespace DBUtl

variable {R : Type*} [Double R]

/-- A generator of one of the three classes. -/
inductive AnyTRNG (R : Type*)
  | rng (c : RGenC R)
  | small (g : RGenI)
  | min (g : RGenO)

namespace AnyTRNG

def isMin : AnyTRNG R → Bool
  | .min _ => true
  | .rng _ | .small _ => false

end AnyTRNG

instance AnyTRNG.generator : Generator R (AnyTRNG R) where
  getSeed st
    | .rng c => Generator.getSeed st c
    | .small g => Generator.getSeed st g
    | .min g => Generator.getSeed st g
  setSeed now s st
    | .rng c => let (st', c') := Generator.setSeed now s st c; (st', .rng c')
    | .small g => let (st', g') := Generator.setSeed now s st g; (st', .small g')
    | .min g => let (st', g') := Generator.setSeed now s st g; (st', .min g')
  getPos st
    | .rng c => Generator.getPos st c
    | .small g => Generator.getPos st g
    | .min g => Generator.getPos st g
  setPos p st
    | .rng c => .rng (Generator.setPos p st c)
    | .small g => .small (Generator.setPos p st g)
    | .min g => .min (Generator.setPos p st g)
  rand st
    | .rng c => let (x, c') := Generator.rand st c; (x, .rng c')
    | .small g => let (x, g') := Generator.rand st g; (x, .small g')
    | .min g => let (x, g') := Generator.rand st g; (x, .min g')

/-- The objects of a program, by name, over the static members. They are constructed before the run:
a constructor writes `_coeff`, the same value each time. -/
def objects (R ι : Type*) [Double R] [DecidableEq ι] :
    Machine (Statics R × (ι → AnyTRNG R)) (ι × Call) (Ret R) where
  step := fun (st, objs) (i, call) =>
    let (x, st', g) := (TRNG R (AnyTRNG R)).step (st, objs i) call
    (x, st', Function.update objs i g)

/-! ## One call -/

section Statics

variable {st st' : Statics R}

theorem rand_eq_of_coeff (h : st.coeff = st'.coeff) (g : RGenI) : g.rand st = g.rand st' := by
  simp [RGenI.rand, RGenI.toUnitReal, h]

theorem fillFrom_eq_of_coeff (h : st.coeff = st'.coeff) (i : ℕ) (hi : i ≤ RGenC.CACHE_SZ)
    (cache : Vector R RGenC.CACHE_SZ) (gen : RGenI) :
    RGenC.fillFrom st i hi cache gen = RGenC.fillFrom st' i hi cache gen := by
  induction i generalizing cache gen with
  | zero => rfl
  | succ i ih =>
    simp only [RGenC.fillFrom, rand_eq_of_coeff h]
    exact ih _ _ _

/-- No draw looks at a static member but `_coeff`. -/
theorem rand_any_eq_of_coeff (h : st.coeff = st'.coeff) (g : AnyTRNG R) :
    Generator.rand st g = Generator.rand st' g := by
  cases g with
  | rng c => simp [Generator.rand, RGenC.rand, RGenC.fill, fillFrom_eq_of_coeff h]
  | small g => simp [Generator.rand, rand_eq_of_coeff h]
  | min g => simp [Generator.rand, RGenO.rand, rand_eq_of_coeff h]

/-- A call leaves `_coeff` as it is. -/
theorem coeff_step (st : Statics R) (g : AnyTRNG R) (call : Call) :
    ((TRNG R (AnyTRNG R)).step (st, g) call).2.1.coeff = st.coeff := by
  cases call <;> cases g <;> rfl

theorem isMin_step (st : Statics R) (g : AnyTRNG R) (call : Call) :
    ((TRNG R (AnyTRNG R)).step (st, g) call).2.2.isMin = g.isMin := by
  cases call <;> cases g <;> rfl

/-- What a call leaves in `RGenO::_seed`. -/
def Call.writeSeed (isMin : Bool) (seed : U32) : Call → U32
  | .setSeed s _ => if isMin then s else seed
  | .rand | .setpos _ | .getPos | .getSeed => seed

theorem seed_step (st : Statics R) (g : AnyTRNG R) (call : Call) :
    ((TRNG R (AnyTRNG R)).step (st, g) call).2.1.seed = call.writeSeed g.isMin st.seed := by
  cases call <;> cases g <;> rfl

/-- What becomes of an object depends on `_coeff` at most. -/
theorem object_step_of_coeff (h : st.coeff = st'.coeff) (g : AnyTRNG R) (call : Call) :
    ((TRNG R (AnyTRNG R)).step (st, g) call).2.2 =
      ((TRNG R (AnyTRNG R)).step (st', g) call).2.2 := by
  cases call with
  | rand => exact congrArg (fun r : R × AnyTRNG R => r.2) (rand_any_eq_of_coeff h g)
  | setpos p => cases g <;> rfl
  | getPos => rfl
  | getSeed => rfl
  | setSeed s now => cases g <;> rfl

/-- The answer depends on `RGenO::_seed` too, in one case. -/
theorem answer_step_iff (h : st.coeff = st'.coeff) (g : AnyTRNG R) (call : Call) :
    ((TRNG R (AnyTRNG R)).step (st, g) call).1 = ((TRNG R (AnyTRNG R)).step (st', g) call).1 ↔
      (g.isMin = true → call = .getSeed → st.seed = st'.seed) := by
  cases call with
  | rand =>
    refine iff_of_true ?_ (fun _ hcall => by cases hcall)
    exact congrArg (fun r : R × AnyTRNG R => Ret.real r.1) (rand_any_eq_of_coeff h g)
  | setpos p => exact iff_of_true rfl (fun _ hcall => by cases hcall)
  | getPos => exact iff_of_true (by cases g <;> rfl) (fun _ hcall => by cases hcall)
  | setSeed s now => exact iff_of_true rfl (fun _ hcall => by cases hcall)
  | getSeed =>
    cases g with
    | rng c => exact iff_of_true rfl (fun hmin => by cases hmin)
    | small g => exact iff_of_true rfl (fun hmin => by cases hmin)
    | min g =>
      constructor
      · intro heq _ _
        exact Ret.seed.inj heq
      · intro heq
        exact congrArg Ret.seed (heq rfl rfl)

end Statics

/-! ## Runs -/

section Runs

variable {ι : Type*} [DecidableEq ι]

/-- The seed in `RGenO::_seed` after calls on objects of which those with `isMin` are `RNGMin`s:
the last one that `setSeed` of such an object was given. -/
def lastSeed (isMin : ι → Bool) (seed : U32) (calls : List (ι × Call)) : U32 :=
  calls.foldl (fun seed c => c.2.writeSeed (isMin c.1) seed) seed

theorem isMin_exec (s : Statics R × (ι → AnyTRNG R)) (calls : List (ι × Call)) (j : ι) :
    (((objects R ι).exec s calls).2 j).isMin = (s.2 j).isMin := by
  refine Machine.exec_eq_of_step (f := fun t => (t.2 j).isMin) (fun t c => ?_) s calls
  show (Function.update t.2 c.1 _ j).isMin = (t.2 j).isMin
  by_cases hj : j = c.1
  · subst hj
    rw [Function.update_self]
    exact isMin_step t.1 (t.2 c.1) c.2
  · rw [Function.update_of_ne hj]

theorem seed_exec (s : Statics R × (ι → AnyTRNG R)) (calls : List (ι × Call)) :
    ((objects R ι).exec s calls).1.seed =
      lastSeed (fun j => (s.2 j).isMin) s.1.seed calls := by
  induction calls generalizing s with
  | nil => rfl
  | cons c calls ih =>
    have hkind (j : ι) : (((objects R ι).step s c).2.2 j).isMin = (s.2 j).isMin :=
      isMin_exec s [c] j
    have hseed : ((objects R ι).step s c).2.1.seed =
        c.2.writeSeed (s.2 c.1).isMin s.1.seed := seed_step s.1 (s.2 c.1) c.2
    rw [Machine.exec_cons, ih, hseed]
    simp only [hkind]
    rfl

theorem answer_objects (s : Statics R × (ι → AnyTRNG R)) (i : ι) (call : Call) :
    ((objects R ι).step s (i, call)).1 = ((TRNG R (AnyTRNG R)).step (s.1, s.2 i) call).1 := rfl

/-- For the object `i` two states are alike. -/
def Alike (i : ι) (s t : Statics R × (ι → AnyTRNG R)) : Prop :=
  s.1.coeff = t.1.coeff ∧ s.2 i = t.2 i

/-- The calls on the other objects leave no trace in object `i`. -/
theorem alike_own (i : ι) (s : Statics R × (ι → AnyTRNG R)) (calls : List (ι × Call)) :
    Alike i ((objects R ι).exec s calls) ((objects R ι).exec s (Machine.own i calls)) := by
  refine Machine.own_related (R := Alike i) ?_ ?_ calls ⟨rfl, rfl⟩
  · rintro s t ⟨j, call⟩ hj ⟨hcoeff, hobj⟩
    have hij : i ≠ j := fun h => hj h.symm
    exact ⟨(coeff_step s.1 (s.2 j) call).trans hcoeff, (Function.update_of_ne hij _ _).trans hobj⟩
  · rintro s t ⟨j, call⟩ hj ⟨hcoeff, hobj⟩
    obtain rfl : j = i := hj
    have hs := coeff_step s.1 (s.2 j) call
    have ht := coeff_step t.1 (t.2 j) call
    refine ⟨hs.trans (hcoeff.trans ht.symm), ?_⟩
    show Function.update s.2 j _ j = Function.update t.2 j _ j
    rw [Function.update_self, Function.update_self, ← hobj]
    exact object_step_of_coeff hcoeff (s.2 j) call

/-- **The calls on an object are isolated from all others, unless it is an `RNGMin` and a `getSeed`
of it finds another seed than its own calls have left.** -/
theorem objects_isolated_iff (s : Statics R × (ι → AnyTRNG R)) (i : ι) (calls : List (ι × Call)) :
    (objects R ι).answers i s calls = (objects R ι).trace s (Machine.own i calls) ↔
      ((s.2 i).isMin = true → ∀ pre post, calls = pre ++ (i, .getSeed) :: post →
        lastSeed (fun j => (s.2 j).isMin) s.1.seed pre =
          lastSeed (fun j => (s.2 j).isMin) s.1.seed (Machine.own i pre)) := by
  have hanswer (pre : List (ι × Call)) (call : Call) :
      ((objects R ι).step ((objects R ι).exec s pre) (i, call)).1 =
          ((objects R ι).step ((objects R ι).exec s (Machine.own i pre)) (i, call)).1 ↔
        ((s.2 i).isMin = true → call = .getSeed →
          lastSeed (fun j => (s.2 j).isMin) s.1.seed pre =
            lastSeed (fun j => (s.2 j).isMin) s.1.seed (Machine.own i pre)) := by
    obtain ⟨hcoeff, hobj⟩ := alike_own i s pre
    rw [answer_objects, answer_objects, ← hobj, answer_step_iff hcoeff, isMin_exec, seed_exec,
      seed_exec]
  rw [Machine.answers_eq_iff]
  constructor
  · intro h hmin pre post hcalls
    exact (hanswer pre .getSeed).1 (h pre _ post hcalls rfl) hmin rfl
  · rintro h pre ⟨j, call⟩ post hcalls hj
    obtain rfl : j = i := hj
    refine (hanswer pre call).2 fun hmin hcall => ?_
    subst hcall
    exact h hmin pre post hcalls

end Runs

/-- Two `RNGMin`s: the second sets its seed, and the first reads it. -/
theorem objects_interfere :
    ¬ ∀ (s : Statics ℚ × (Bool → AnyTRNG ℚ)) (i : Bool) (calls : List (Bool × Call)),
      (∀ c ∈ calls, ∀ now, c.2 ≠ .setSeed 0 now) →
      (objects ℚ Bool).answers i s calls = (objects ℚ Bool).trace s (Machine.own i calls) := by
  intro h
  have hanswers := h (⟨unitCoeff ℚ, RGenI.INIT_SEED⟩, fun _ => .min ⟨⟨RGenI.INIT_DATA⟩⟩) true
    [(true, .setSeed 1 0), (false, .setSeed 2 0), (true, .getSeed)] (by simp)
  have hlast : (some (Ret.seed 2) : Option (Ret ℚ)) = some (Ret.seed 1) :=
    congrArg (·[1]?) hanswers
  simp at hlast

end DBUtl
