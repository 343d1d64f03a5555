import DBUtl.RNG
import Mathlib.Data.Nat.Bitwise
import Mathlib.Logic.Function.Iterate
import Mathlib.Tactic.Positivity

/-!
# The packed counter

`RGenI` keeps the sequence identifier in the high 24 bits of its counter and the position in the
low 40. This file says what the four accessors do to that word, as numbers: each is a quotient,
a remainder or a sum by `2 ^ 40`. No later proof unfolds a mask or a shift.
-/

namespace DBUtl.RGenI

/-! ## The two masks -/

theorem toNat_and_low (x : U64) : (x &&& (0xffffffffff : U64)).toNat = x.toNat % 2 ^ 40 := by
  rw [BitVec.toNat_and, show (0xffffffffff : U64).toNat = 2 ^ 40 - 1 by rfl,
    Nat.and_two_pow_sub_one_eq_mod]

theorem toNat_and_high (x : U64) :
    (x &&& (0xffffff0000000000 : U64)).toNat = x.toNat / 2 ^ 40 * 2 ^ 40 := by
  rw [show (0xffffff0000000000 : U64) = BitVec.allOnes 64 <<< 40 by rfl,
    ← BitVec.shiftLeft_ushiftRight, BitVec.toNat_shiftLeft, BitVec.toNat_ushiftRight,
    Nat.shiftRight_eq_div_pow, Nat.shiftLeft_eq]
  have := x.isLt
  omega

/-! ## The accessors -/

theorem toNat_getSeed (g : RGenI) : g.getSeed.toNat = g.data.toNat / 2 ^ 40 := by
  rw [getSeed, BitVec.toNat_setWidth, BitVec.toNat_ushiftRight, Nat.shiftRight_eq_div_pow]
  have := g.data.isLt
  omega

theorem toNat_getPos (g : RGenI) : g.getPos.toNat = g.data.toNat % 2 ^ 40 := toNat_and_low _

theorem toNat_setSeed (now : U32) {s : U32} (hs : s ≠ 0) (g : RGenI) :
    (g.setSeed now s).data.toNat = g.data.toNat % 2 ^ 40 + s.toNat % 2 ^ 24 * 2 ^ 40 := by
  rw [setSeed, if_pos hs, BitVec.toNat_add, toNat_and_low, BitVec.toNat_shiftLeft,
    Nat.shiftLeft_eq, BitVec.toNat_setWidth]
  have := s.isLt
  omega

theorem toNat_setPos (p : U64) (g : RGenI) :
    (g.setPos p).data.toNat = g.data.toNat / 2 ^ 40 * 2 ^ 40 + p.toNat % 2 ^ 40 := by
  have hlow : p.toNat % 2 ^ 40 < 2 ^ 40 := Nat.mod_lt _ (by positivity)
  rw [setPos, BitVec.toNat_or, toNat_and_low, toNat_and_high, ← Nat.shiftLeft_eq,
    ← Nat.shiftLeft_add_eq_or_of_lt hlow]

theorem ext_toNat {g g' : RGenI} (h : g.data.toNat = g'.data.toNat) : g = g' := by
  cases g
  cases g'
  exact congrArg RGenI.mk (BitVec.eq_of_toNat_eq h)

theorem getSeed_setPos (p : U64) (g : RGenI) : (g.setPos p).getSeed = g.getSeed := by
  apply BitVec.eq_of_toNat_eq
  rw [toNat_getSeed, toNat_getSeed, toNat_setPos]
  omega

/-! ## The start of a sequence -/

/-- Position `0` of the sequence that the seed `s` names. -/
def start (s : U32) : RGenI := ⟨BitVec.ofNat 64 (s.toNat % 2 ^ 24 * 2 ^ 40)⟩

theorem toNat_start (s : U32) : (start s).data.toNat = s.toNat % 2 ^ 24 * 2 ^ 40 := by
  rw [start, BitVec.toNat_ofNat]
  omega

theorem setPos_zero_setSeed (now : U32) {s : U32} (hs : s ≠ 0) (g : RGenI) :
    (g.setSeed now s).setPos 0 = start s := by
  apply ext_toNat
  rw [toNat_setPos, toNat_setSeed now hs, toNat_start, show (0 : U64).toNat = 0 from rfl]
  omega

theorem setSeed_init (now : U32) {s : U32} (hs : s ≠ 0) :
    (RGenI.mk INIT_DATA).setSeed now s = start s := by
  apply ext_toNat
  rw [toNat_setSeed now hs, toNat_start, show INIT_DATA.toNat % 2 ^ 40 = 0 by decide, Nat.zero_add]

/-! ## Stepping the counter -/

/-- The generator after one draw. -/
def next (g : RGenI) : RGenI := ⟨g.data + 1⟩

theorem next_iterate (k : ℕ) (g : RGenI) : next^[k] g = ⟨g.data + BitVec.ofNat 64 k⟩ := by
  induction k with
  | zero => simp
  | succ k ih =>
    rw [Function.iterate_succ_apply', ih, next, BitVec.add_assoc, BitVec.ofNat_add]
    rfl

theorem toNat_next_iterate (k : ℕ) (g : RGenI) :
    (next^[k] g).data.toNat = (g.data.toNat + k) % 2 ^ 64 := by
  rw [next_iterate, BitVec.toNat_add, BitVec.toNat_ofNat, Nat.add_mod_mod]

/-! ## A draw -/

variable {R : Type*} [Double R]

/-- The value a draw returns in state `g`. -/
def value (st : Statics R) (g : RGenI) : R := toUnitReal st g.rightWord

end DBUtl.RGenI
