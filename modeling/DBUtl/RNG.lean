import DBUtl.Lib.Machine
import Mathlib.Algebra.Order.Ring.Nat
import Mathlib.Data.Fin.VecNotation
import Mathlib.Data.Rat.Defs
import Mathlib.Tactic.SplitIfs

/-!
# The hashing generators

The random number generators of `RNG.h` and `RNG.cpp`. A generator is a 64-bit counter whose
high 24 bits are the sequence identifier (the seed) and whose low 40 bits are the position; a
draw hashes the counter with `psdes` and adds one to it. Three classes do this in three ways:
`RGenI` on the counter alone, `RGenO` by inheriting from `RGenI`, `RGenC` through a cache of the
next four values. `TRNG` is the interface they are used through.

The static members of the classes are shared by all objects. They are a value of `Statics`,
threaded through every method. A reading of the clock, which `setSeed(0)` needs, is the argument
`now`.
-/

namespace DBUtl

abbrev U32 := BitVec 32
abbrev U64 := BitVec 64

/-- What the generators ask of `double`: the conversion of an integer, and three operations
without any law. The rationals are the exact instance; IEEE doubles are another. -/
class Double (R : Type*) extends Mul R, Sub R, Div R, NatCast R

instance : Double ℚ where

/-- The static members of the generator classes. -/
structure Statics (R : Type*) where
  /-- `RGenI::_coeff`. -/
  coeff : R
  /-- `RGenO::_seed`. -/
  seed : U32

variable {R : Type*} [Double R]

/-- The value the constructor of `RGenI` stores in `_coeff`. The epsilon of `float` is `2⁻²³`. -/
def unitCoeff (R : Type*) [Double R] : R :=
  (((1 : ℕ) : R) - ((1 : ℕ) : R) / ((2 ^ 23 : ℕ) : R)) / ((2 ^ 32 - 1 : ℕ) : R)

/-! ## The inline generator -/

/-- Inline generator: the state is one 64-bit counter. -/
structure RGenI where
  data : U64
  deriving DecidableEq, Repr

namespace RGenI

def INIT_SEED : U32 := 0x5a5a5a

def INIT_DATA : U64 := INIT_SEED.setWidth 64 <<< 40

/-- The constructor. It also writes the shared `_coeff`. -/
def new (st : Statics R) : Statics R × RGenI :=
  ({ st with coeff := unitCoeff R }, ⟨INIT_DATA⟩)

/-! ### The hash -/

def NITER : ℕ := 4

def c1 : Fin NITER → U32 := ![0xbaa96887, 0x1e17d32c, 0x03bcdc3c, 0x0f33d1b2]

def c2 : Fin NITER → U32 := ![0x4b0f3b58, 0xe874f0c3, 0x6955c5a6, 0x55a7ca46]

/-- What iteration `i` of `psdes` computes from the right word `iswap` and xors into the left. -/
def psdesMix (i : Fin NITER) (iswap : U32) : U32 :=
  let ia := iswap ^^^ c1 i
  let itmpl := ia &&& 0xffff
  let itmph := ia >>> 16
  let ib := itmpl * itmpl + ~~~(itmph * itmph)
  ((ib >>> 16 ||| (ib &&& 0xffff) <<< 16) ^^^ c2 i) + itmpl * itmph

/-- One iteration of the loop of `psdes`. -/
def psdesRound (i : Fin NITER) (w : U32 × U32) : U32 × U32 :=
  (w.2, w.1 ^^^ psdesMix i w.2)

/-- The simplified DES of two 32-bit words. -/
def psdes (lword irword : U32) : U32 × U32 :=
  (List.finRange NITER).foldl (fun w i => psdesRound i w) (lword, irword)

-- The table the test program of `RNG.cpp` compares with.
example : psdes 1 1 = (0x604d1dce, 0x509c0c23) ∧ psdes 1 99 = (0xd97f8571, 0xa66cb41a) ∧
    psdes 99 1 = (0x7822309d, 0x64300984) ∧ psdes 99 99 = (0xd7f376f0, 0x59ba89eb) := by decide

def hash64to32 (lword rword : U32) : U32 := (psdes lword rword).2

def toUnitReal (st : Statics R) (n : U32) : R := (n.toNat : R) * st.coeff

/-! ### Seed and position -/

def getSeed (g : RGenI) : U32 := (g.data >>> 40).setWidth 32

/-- The seed `_setRandomSeed` makes from the clock and the old seed. It is never `0`. -/
def randomSeed (now : U32) (g : RGenI) : U32 :=
  let newSeed := (psdes g.getSeed now).2 <<< 8
  if newSeed = 0 then INIT_SEED else newSeed

theorem randomSeed_ne_zero (now : U32) (g : RGenI) : randomSeed now g ≠ 0 := by
  simp only [randomSeed]
  split_ifs with h
  · decide
  · exact h

/-- Install the sequence identifier `s`. For `0` the body of `_setRandomSeed` runs, which calls
back with a seed that is not `0`. -/
def setSeed (now s : U32) (g : RGenI) : RGenI :=
  if s ≠ 0 then
    ⟨(g.data &&& (0xffffffffff : U64)) + (s.setWidth 64 <<< 40)⟩
  else
    setSeed now (randomSeed now g) g
termination_by if s = 0 then 1 else 0
decreasing_by
  have := randomSeed_ne_zero now g
  simp_all

def setRandomSeed (now : U32) (g : RGenI) : RGenI := setSeed now (randomSeed now g) g

def getPos (g : RGenI) : U64 := g.data &&& (0xffffffffff : U64)

def setPos (pos : U64) (g : RGenI) : RGenI :=
  ⟨(g.data &&& (0xffffff0000000000 : U64)) ||| (pos &&& (0xffffffffff : U64))⟩

/-! ### Drawing -/

/-- The right word of the hashed counter, which `rand` hands to `toUnitReal`. -/
def rightWord (g : RGenI) : U32 :=
  let lw : U32 := (g.data >>> 32).setWidth 32
  let rw : U32 := g.data.setWidth 32
  (psdes lw rw).2

def rand (st : Statics R) (g : RGenI) : R × RGenI :=
  (toUnitReal st g.rightWord, ⟨g.data + 1⟩)

end RGenI

/-! ## The out-of-line generator -/

/-- Out-of-line generator. It inherits the counter of `RGenI`, and hides its seed methods with
static ones that use `RGenO::_seed`. -/
structure RGenO extends RGenI

namespace RGenO

def new (st : Statics R) : Statics R × RGenO :=
  let (st', g) := RGenI.new st
  (st', ⟨g⟩)

def hash64to32 (lword rword : U32) : U32 := RGenI.hash64to32 lword rword

def getSeed (st : Statics R) : U32 := st.seed

def setSeed (s : U32) (st : Statics R) : Statics R := { st with seed := s }

def rand (st : Statics R) (g : RGenO) : R × RGenO :=
  let (x, g') := g.toRGenI.rand st
  (x, ⟨g'⟩)

end RGenO

/-! ## The caching generator -/

/-- The number of values a refill of the cache draws. -/
abbrev RGenC.CACHE_SZ : ℕ := 4

/-- Caching generator. The unread values of the cache are those below `ix`, the next one to be
returned on top. -/
structure RGenC (R : Type*) where
  gen : RGenI
  cache : Vector R RGenC.CACHE_SZ
  ix : ℕ
  ix_le : ix ≤ RGenC.CACHE_SZ

namespace RGenC

/-- The constructor. It leaves the cache with the contents `raw` of the storage it is given. -/
def new (raw : Vector R CACHE_SZ) (st : Statics R) : Statics R × RGenC R :=
  let (st', gen) := RGenI.new st
  (st', ⟨gen, raw, 0, by decide⟩)

/-- The loop of `_fill`, entered with the index `i`: slot `i - 1` downto slot `0`. -/
def fillFrom (st : Statics R) :
    (i : ℕ) → i ≤ CACHE_SZ → Vector R CACHE_SZ → RGenI → Vector R CACHE_SZ × RGenI
  | 0, _, cache, gen => (cache, gen)
  | i + 1, h, cache, gen =>
    let (x, gen') := gen.rand st
    fillFrom st i (Nat.le_of_succ_le h) (cache.set i x h) gen'

def fill (st : Statics R) (c : RGenC R) : RGenC R :=
  let (cache, gen) := fillFrom st CACHE_SZ le_rfl c.cache c.gen
  ⟨gen, cache, CACHE_SZ, le_rfl⟩

def getSeed (c : RGenC R) : U32 := c.gen.getSeed

def setSeed (now s : U32) (c : RGenC R) : RGenC R :=
  { c with gen := (c.gen.setSeed now s).setPos 0, ix := 0, ix_le := by decide }

def getPos (c : RGenC R) : U64 := c.gen.getPos - BitVec.ofNat 64 c.ix

def setPos (p : U64) (c : RGenC R) : RGenC R :=
  { c with gen := c.gen.setPos p, ix := 0, ix_le := by decide }

/-- Return the top unread value of a cache that has one. -/
def pop (c : RGenC R) (h : 0 < c.ix) : R × RGenC R :=
  have hix : c.ix - 1 < CACHE_SZ := by have := c.ix_le; omega
  (c.cache[c.ix - 1], { c with ix := c.ix - 1, ix_le := hix.le })

def rand (st : Statics R) (c : RGenC R) : R × RGenC R :=
  if h : c.ix = 0 then (c.fill st).pop (show 0 < CACHE_SZ from Nat.succ_pos 3)
  else c.pop (Nat.pos_of_ne_zero h)

end RGenC

/-! ## The common interface -/

/-- The methods `TRNG` needs of the generator class it is instantiated with. -/
class Generator (R G : Type*) where
  getSeed : Statics R → G → U32
  setSeed : (now s : U32) → Statics R → G → Statics R × G
  getPos : Statics R → G → U64
  setPos : U64 → Statics R → G → G
  rand : Statics R → G → R × G

instance : Generator R RGenI where
  getSeed _ g := g.getSeed
  setSeed now s st g := (st, g.setSeed now s)
  getPos _ g := g.getPos
  setPos p _ g := g.setPos p
  rand := RGenI.rand

instance : Generator R RGenO where
  getSeed st _ := RGenO.getSeed st
  setSeed _ s st g := (RGenO.setSeed s st, g)
  getPos _ g := g.getPos
  setPos p _ g := ⟨g.toRGenI.setPos p⟩
  rand := RGenO.rand

instance : Generator R (RGenC R) where
  getSeed _ c := c.getSeed
  setSeed now s st c := (st, c.setSeed now s)
  getPos _ c := c.getPos
  setPos p _ c := c.setPos p
  rand := RGenC.rand

/-- A call of a method of `TRNG`. A call of `setSeed` carries the clock it would read. -/
inductive Call where
  | rand
  | setpos (pos : U64)
  | getPos
  | getSeed
  | setSeed (seed now : U32)
  deriving DecidableEq, Repr

/-- The value a method of `TRNG` returns. -/
inductive Ret (R : Type*) where
  | real (x : R)
  | pos (p : U64)
  | seed (s : U32)
  | void
  deriving DecidableEq, Repr

/-- A `TRNG` object over the generator class `G`, together with the static members. -/
def TRNG (R G : Type*) [Generator R G] : Machine (Statics R × G) Call (Ret R) where
  step := fun (st, g) call =>
    match call with
    | .rand => let (x, g') := Generator.rand st g; (.real x, st, g')
    | .setpos p => (.void, st, Generator.setPos p st g)
    | .getPos => (.pos (Generator.getPos st g), st, g)
    | .getSeed => (.seed (Generator.getSeed st g), st, g)
    | .setSeed s now => (.void, Generator.setSeed now s st g)

/-- The constructor `RNG(s1, s2)`. -/
def RNG.new (raw : Vector R RGenC.CACHE_SZ) (st : Statics R) (now s1 : U32) (s2 : U32 := 0) :
    Statics R × RGenC R :=
  let (st', g) := RGenC.new raw st
  Generator.setSeed now (s1 ^^^ s2) st' g

/-- The constructor `RNGSmall(s1, s2)`. -/
def RNGSmall.new (st : Statics R) (now s1 : U32) (s2 : U32 := 0) : Statics R × RGenI :=
  let (st', g) := RGenI.new st
  Generator.setSeed now (s1 ^^^ s2) st' g

/-- The constructor `RNGMin(s1, s2)`. -/
def RNGMin.new (st : Statics R) (now s1 : U32) (s2 : U32 := 0) : Statics R × RGenO :=
  let (st', g) := RGenO.new st
  Generator.setSeed now (s1 ^^^ s2) st' g

end DBUtl
