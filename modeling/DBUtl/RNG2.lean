import DBUtl.Lib.Checked
import Mathlib.Data.Rat.Defs
import Mathlib.Algebra.Field.Rat
import Mathlib.Algebra.Order.Ring.Unbundled.Rat

/-!
# The combined generator `RNG2`

The generator of `RNG2.h` and `RNG2.cpp`: two multiplicative congruential generators, `idum` and
`idum2`, and a table `iv` of 32 values of the first. A draw picks the table entry its predecessor
`iy` points at, subtracts the second generator from it, and puts a new value of the first in its
place.

All fields are `int32_t`. Each arithmetic result goes through `int32`, which fails on a signed
overflow, and a table access fails outside the table; so `none` stands for undefined behaviour.
The returned `double` is taken as an exact rational.
-/

namespace DBUtl

/-- A result of `int32_t` arithmetic. -/
abbrev int32 (x : ℤ) : Option ℤ := checked 31 x

structure RNG2 where
  idum : ℤ
  idum2 : ℤ
  iy : ℤ
  iv : Vector ℤ 32
  deriving DecidableEq, Repr

namespace RNG2

/-! ## Constants -/

def IM1 : ℤ := 2147483563
def IM2 : ℤ := 2147483399
def IA1 : ℤ := 40014
def IA2 : ℤ := 40692
def IQ1 : ℤ := 53668
def IQ2 : ℤ := 52774
def IR1 : ℤ := 12211
def IR2 : ℤ := 3791
abbrev NTAB : ℕ := 32
def IMM1 : ℤ := IM1 - 1
def NDIV : ℤ := 1 + IMM1 / NTAB

def EPS : ℚ := 3 / 10 ^ 16
def RNMX : ℚ := 1 - EPS
def AM : ℚ := 1 / IM1

/-! ## Construction -/

/-- The step of a generator, as it is written out three times: in the constructor for `idum`,
and in `rand` for `idum` and for `idum2`. -/
def lcgStep (IA IQ IR IM x : ℤ) : Option ℤ := do
  let k ← int32 (x.tdiv IQ)
  let kQ ← int32 (k * IQ)
  let r ← int32 (x - kQ)
  let Ar ← int32 (IA * r)
  let kR ← int32 (k * IR)
  let x' ← int32 (Ar - kR)
  if x' < 0 then int32 (x' + IM) else some x'

def stepIdum (idum : ℤ) : Option ℤ := lcgStep IA1 IQ1 IR1 IM1 idum

def stepIdum2 (idum2 : ℤ) : Option ℤ := lcgStep IA2 IQ2 IR2 IM2 idum2

/-- The seed made positive. The negation is that of the type: it sends `INT_MIN` to itself. -/
def magnitude (seed : Int32) : Int32 :=
  if 0 < seed then seed else if seed < 0 then -seed else 1

/-- The loop of the constructor with `j` iterations to go: the loop variable runs from `j - 1`
down to `0`. -/
def load : (j : ℕ) → (idum : ℤ) → (iv : Vector ℤ NTAB) → Option (ℤ × Vector ℤ NTAB)
  | 0, idum, iv => some (idum, iv)
  | j + 1, idum, iv => do
    let idum' ← stepIdum idum
    load j idum' (if h : j < NTAB then iv.set j idum' h else iv)

/-- The constructor. The table has the contents `raw` of its storage before it is loaded. -/
def new (raw : Vector ℤ NTAB) (seed : Int32) : Option RNG2 := do
  let (idum, iv) ← load (NTAB + 8) (magnitude seed).toInt raw
  some { idum := idum, idum2 := (magnitude seed).toInt, iy := iv[0], iv := iv }

/-! ## Drawing -/

/-- The returned value: `iy` scaled to the unit interval, and clamped. -/
def scaled (iy : ℤ) : ℚ :=
  let temp := AM * iy
  if temp > RNMX then RNMX else temp

def rand (g : RNG2) : Option (ℚ × RNG2) := do
  let idum ← stepIdum g.idum
  let idum2 ← stepIdum2 g.idum2
  let j ← int32 (g.iy.tdiv NDIV)
  if h : 0 ≤ j ∧ j.toNat < NTAB then
    have hj := h.2
    let diff ← int32 (g.iv[j.toNat] - idum2)
    let iy ← if diff < 1 then int32 (diff + IMM1) else some diff
    some (scaled iy, { idum := idum, idum2 := idum2, iy := iy, iv := g.iv.set j.toNat idum })
  else none

/-- The state after `n` calls of `rand`. -/
def after (g : RNG2) : ℕ → Option RNG2
  | 0 => some g
  | n + 1 => do
    let g' ← g.after n
    let (_, g'') ← g'.rand
    some g''

end RNG2

end DBUtl
