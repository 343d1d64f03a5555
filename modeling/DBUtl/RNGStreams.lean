import DBUtl.RNGCache
import DBUtl.RNGObjects

/-!
# A sequence shared out among generators

A seed names a sequence, and `setpos` goes to any place of it. So several generators can draw one
sequence together, each a piece of its own: it is given the seed and the position at which its
piece starts, and draws as many values as the piece is long.

**Theorem (`streams_split`).** However the calls on the generators are interleaved, with each other
and with calls on any other generators, the pieces put together are what one generator draws.

Two facts carry it. The calls on an object that is not an `RNGMin` are answered as if no others
were made. And after `setSeed` and `setpos` the draws are those of the sequence from the position
on, for an `RNG` as for an `RNGSmall`, whatever the object did before: a cache is empty then.
-/

namespace DBUtl

open RGenI (next)

variable {R : Type*} [Double R]

/-! ## The sequence of a seed -/

/-- The `n` values of the sequence `s` from position `p` on. -/
def slice (st : Statics R) (s : U32) (p n : ℕ) : List R :=
  (List.range n).map fun i => (next^[p + i] (RGenI.start s)).value st

theorem slice_append (st : Statics R) (s : U32) (p m n : ℕ) :
    slice st s p m ++ slice st s (p + m) n = slice st s p (m + n) := by
  simp only [slice, List.range_add, List.map_append, List.map_map, Function.comp_def, add_assoc]

theorem RGenI.setPos_setPos (p q : U64) (g : RGenI) : (g.setPos p).setPos q = g.setPos q := by
  apply RGenI.ext_toNat
  rw [RGenI.toNat_setPos, RGenI.toNat_setPos, RGenI.toNat_setPos]
  omega

/-- `setPos` goes where as many draws would go. -/
theorem RGenI.setPos_start (s : U32) {p : U64} (hp : p.toNat < 2 ^ 40) :
    (RGenI.start s).setPos p = next^[p.toNat] (RGenI.start s) := by
  apply RGenI.ext_toNat
  rw [RGenI.toNat_setPos, RGenI.toNat_next_iterate, RGenI.toNat_start]
  omega

/-! ## One generator -/

namespace AnyTRNG

variable {st : Statics R} {g : AnyTRNG R} {h : RGenI}

/-- What the generator draws next are the values from the state `h` on. -/
def DrawsFrom (st : Statics R) (h : RGenI) : AnyTRNG R → Prop
  | .rng c => RGenC.Synced st c h
  | .small g => g = h
  | .min g => g.toRGenI = h

theorem DrawsFrom.rand (hg : g.DrawsFrom st h) :
    (Generator.rand st g).1 = h.value st ∧ (Generator.rand st g).2.DrawsFrom st (next h) := by
  cases g with
  | rng c => exact RGenC.Synced.rand hg
  | small g =>
    obtain rfl : g = h := hg
    exact ⟨rfl, rfl⟩
  | min g =>
    obtain rfl : g.toRGenI = h := hg
    exact ⟨rfl, rfl⟩

theorem DrawsFrom.trace (hg : g.DrawsFrom st h) (n : ℕ) :
    (TRNG R (AnyTRNG R)).trace (st, g) (List.replicate n .rand) =
      (List.range n).map fun i => .real ((next^[i] h).value st) := by
  induction n generalizing g h with
  | zero => rfl
  | succ n ih =>
    obtain ⟨hvalue, hrest⟩ := hg.rand
    rw [List.replicate_succ, Machine.trace_cons, List.range_succ_eq_map, List.map_cons,
      List.map_map]
    exact congrArg₂ List.cons (congrArg Ret.real hvalue) (ih hrest)

/-- What a generator is asked to draw the `n` values of the sequence `s` from position `p` on. -/
def piece (s now : U32) (p : U64) (n : ℕ) : List Call :=
  .setSeed s now :: .setpos p :: List.replicate n .rand

/-- Whatever it did before, the generator is at the position `p` of the sequence `s`. -/
theorem drawsFrom_setpos (st : Statics R) (hg : g.isMin = false) (now : U32) {s : U32}
    (hs : s ≠ 0) (p : U64) : ∃ g' : AnyTRNG R,
      (TRNG R (AnyTRNG R)).exec (st, g) [.setSeed s now, .setpos p] = (st, g') ∧
      g'.DrawsFrom st ((RGenI.start s).setPos p) := by
  cases g with
  | rng c =>
    refine ⟨_, rfl, ?_⟩
    rw [← RGenI.setPos_zero_setSeed now hs c.gen]
    exact RGenC.synced_setPos st (c.setSeed now s) p
  | small g =>
    refine ⟨_, rfl, ?_⟩
    rw [← RGenI.setPos_zero_setSeed now hs g, RGenI.setPos_setPos]
    rfl
  | min g => cases hg

end AnyTRNG

/-- The values that were drawn, among the answers. -/
def draws (answers : List (Ret R)) : List R := answers.filterMap Ret.real?

theorem draws_piece (st : Statics R) {g : AnyTRNG R} (hg : g.isMin = false) (now : U32) {s : U32}
    (hs : s ≠ 0) {p : U64} (hp : p.toNat < 2 ^ 40) (n : ℕ) :
    draws ((TRNG R (AnyTRNG R)).trace (st, g) (AnyTRNG.piece s now p n)) =
      slice st s p.toNat n := by
  obtain ⟨g', hexec, hg'⟩ := AnyTRNG.drawsFrom_setpos st hg now hs p
  have htrace : (TRNG R (AnyTRNG R)).trace (st, g) (AnyTRNG.piece s now p n) =
      (TRNG R (AnyTRNG R)).trace (st, g) [.setSeed s now, .setpos p] ++
        (List.range n).map fun i => .real ((next^[i] ((RGenI.start s).setPos p)).value st) := by
    rw [← hg'.trace n, ← hexec, ← Machine.trace_append]
    rfl
  have hvoid : draws ((TRNG R (AnyTRNG R)).trace (st, g) [.setSeed s now, .setpos p]) = [] := rfl
  rw [htrace, draws, List.filterMap_append, ← draws, hvoid, List.nil_append, List.filterMap_map,
    RGenI.setPos_start s hp]
  simp only [slice, Function.comp_def, Ret.real?, List.filterMap_eq_map',
    ← Function.iterate_add_apply, add_comm]

/-! ## Many generators -/

section Objects

variable {ι : Type*} [DecidableEq ι]

/-- The calls on an object that is not an `RNGMin` are answered as if no others were made. -/
theorem answers_own {s : Statics R × (ι → AnyTRNG R)} {i : ι} (hi : (s.2 i).isMin = false)
    (calls : List (ι × Call)) :
    (objects R ι).answers i s calls = (objects R ι).trace s (Machine.own i calls) := by
  rw [Machine.answers_eq_iff]
  rintro pre ⟨j, call⟩ post - hj
  obtain rfl : j = i := hj
  obtain ⟨hcoeff, hobj⟩ := alike_own j s pre
  rw [answer_objects, answer_objects, ← hobj, answer_step_iff hcoeff, isMin_exec, hi]
  intro hmin
  cases hmin

/-- Calls on one object are calls on a generator. -/
theorem trace_objects (st : Statics R) (objs : ι → AnyTRNG R) (i : ι) (calls : List Call) :
    (objects R ι).trace (st, objs) (calls.map (Prod.mk i)) =
      (TRNG R (AnyTRNG R)).trace (st, objs i) calls := by
  induction calls generalizing st objs with
  | nil => rfl
  | cons call calls ih =>
    rw [List.map_cons, Machine.trace_cons, Machine.trace_cons]
    refine congrArg₂ List.cons rfl ((ih _ _).trans ?_)
    rw [Function.update_self]
    rfl

/-- The number of values in the pieces. -/
def total (pieces : List (ι × ℕ)) : ℕ := (pieces.map Prod.snd).sum

omit [DecidableEq ι] in
theorem flatMap_slice {st : Statics R} {s : U32} {f : ι × ℕ → List R} {p : ℕ}
    {pieces : List (ι × ℕ)} (h : ∀ pre b post, pieces = pre ++ b :: post →
      f b = slice st s (p + total pre) b.2) :
    pieces.flatMap f = slice st s p (total pieces) := by
  induction pieces generalizing p with
  | nil => rfl
  | cons b pieces ih =>
    have hrest : pieces.flatMap f = slice st s (p + b.2) (total pieces) := by
      refine ih fun pre c post heq => ?_
      rw [h (b :: pre) c post (by rw [heq]; rfl), total, total, List.map_cons, List.sum_cons,
        add_assoc]
    have hhead : f b = slice st s p b.2 := h [] b pieces rfl
    rw [List.flatMap_cons, hhead, hrest, slice_append]
    rfl

/-- **The pieces put together are the sequence.** Several generators, each an `RNG` or an
`RNGSmall`, are given one seed and consecutive pieces of its sequence. In whatever order their
calls are made, among themselves and with any calls on other generators, what they draw is, piece
after piece, what one generator draws. -/
theorem streams_split (st : Statics R) (objs : ι → AnyTRNG R) (calls : List (ι × Call)) {s : U32}
    (hs : s ≠ 0) (pieces : List (ι × ℕ)) (hkind : ∀ b ∈ pieces, (objs b.1).isMin = false)
    (hcalls : ∀ pre b post, pieces = pre ++ b :: post → ∃ now, Machine.own b.1 calls =
      (AnyTRNG.piece s now (BitVec.ofNat 64 (total pre)) b.2).map (Prod.mk b.1))
    (hfits : total pieces < 2 ^ 40) {g : AnyTRNG R} (hg : g.isMin = false) (now : U32) :
    pieces.flatMap (fun b => draws ((objects R ι).answers b.1 (st, objs) calls)) =
      draws ((TRNG R (AnyTRNG R)).trace (st, g) (AnyTRNG.piece s now 0 (total pieces))) := by
  rw [draws_piece st hg now hs (by decide)]
  refine flatMap_slice fun pre b post heq => ?_
  obtain ⟨now', hown⟩ := hcalls pre b post heq
  have hpre : total pre < 2 ^ 40 := by
    have hsum : total pieces = total pre + (b.2 + total post) := by
      rw [heq, total, List.map_append, List.sum_append, List.map_cons, List.sum_cons]
      rfl
    omega
  have hpos : (BitVec.ofNat 64 (total pre)).toNat = total pre := by
    rw [BitVec.toNat_ofNat, Nat.mod_eq_of_lt (by omega)]
  have hmin := hkind b (by rw [heq]; exact List.mem_append_right _ List.mem_cons_self)
  rw [answers_own hmin, hown, trace_objects, draws_piece st hmin now' hs (by omega), hpos]
  simp

end Objects

/-- A cached generator draws the first value and an inline one the next two. -/
theorem streams_split_two :
    [(true, 1), (false, 2)].flatMap (fun b => draws ((objects ℚ Bool).answers b.1
      (⟨unitCoeff ℚ, 0⟩, fun i =>
        if i then .rng ⟨⟨5⟩, Vector.replicate 4 0, 3, by decide⟩ else .small ⟨7⟩)
      [(true, .setSeed 1 0), (false, .setSeed 1 0), (false, .setpos 1), (false, .rand),
        (true, .setpos 0), (true, .rand), (false, .rand)])) =
      draws ((TRNG ℚ (AnyTRNG ℚ)).trace (⟨unitCoeff ℚ, 0⟩, .small ⟨9⟩)
        (AnyTRNG.piece 1 0 0 3)) := by
  refine streams_split _ _ _ (by decide) [(true, 1), (false, 2)] ?_ ?_ (by decide) rfl 0
  · intro b hb
    rcases List.mem_pair.1 hb with rfl | rfl <;> rfl
  · intro pre b post heq
    rcases pre with _ | ⟨c, _ | ⟨d, pre⟩⟩
    · obtain ⟨rfl, -⟩ := List.cons.inj heq
      exact ⟨0, rfl⟩
    · obtain ⟨rfl, hrest⟩ := List.cons.inj heq
      obtain ⟨rfl, -⟩ := List.cons.inj hrest
      exact ⟨0, rfl⟩
    · simp at heq

end DBUtl
