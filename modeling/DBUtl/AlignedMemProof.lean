import DBUtl.AlignedMem
import Mathlib.Algebra.Order.Ring.Nat
import Mathlib.Data.Nat.Bitwise
import Mathlib.Order.Basic

/-!
# The layout of a block

The address of a block is the last aligned address up to the start of what `malloc` granted, plus
the alignment. It is aligned whenever the check lets the alignment pass. The header word fits in
front of it when the alignment is a multiple of the eight bytes that `malloc` aligns to, and the
block fits behind it when the size of the request has not wrapped around.
-/

namespace DBUtl

namespace AlignedMem

/-! ## Addresses as numbers -/

theorem toNat_sub_one {x : Word} (hx : x ≠ 0) : (x - 1).toNat = x.toNat - 1 := by
  have hne : x.toNat ≠ 0 := fun h => hx (BitVec.eq_of_toNat_eq h)
  have hlt := x.isLt
  rw [BitVec.toNat_sub, show (1 : Word).toNat = 1 from rfl]
  omega

/-- What the check lets pass, besides `0`. -/
theorem exists_eq_two_pow {alignSize : Word} (h : alignSize &&& (alignSize - 1) = 0)
    (hne : alignSize ≠ 0) : ∃ k < 64, alignSize.toNat = 2 ^ k := by
  have hand : alignSize.toNat &&& (alignSize.toNat - 1) = 0 := by
    rw [← toNat_sub_one hne, ← BitVec.toNat_and, h]
    rfl
  have hne' : alignSize.toNat ≠ 0 := fun h => hne (BitVec.eq_of_toNat_eq h)
  obtain ⟨k, hk⟩ := (Nat.and_sub_one_eq_zero_iff_isPowerOfTwo hne').1 hand
  refine ⟨k, ?_, hk⟩
  rw [← Nat.pow_lt_pow_iff_right (show 1 < 2 by decide), ← hk]
  exact alignSize.isLt

/-- The misalignment of the start. -/
theorem toNat_off {alignSize : Word} (h : alignSize &&& (alignSize - 1) = 0) (hne : alignSize ≠ 0)
    (base : Word) : (base &&& (alignSize - 1)).toNat = base.toNat % alignSize.toNat := by
  obtain ⟨k, -, hk⟩ := exists_eq_two_pow h hne
  rw [BitVec.toNat_and, toNat_sub_one hne, hk, Nat.and_two_pow_sub_one_eq_mod]

/-- The address of the block. -/
theorem toNat_block {alignSize : Word} (h : alignSize &&& (alignSize - 1) = 0)
    (hne : alignSize ≠ 0) (base : Word) :
    (base - (base &&& (alignSize - 1)) + alignSize).toNat =
      (base.toNat - base.toNat % alignSize.toNat + alignSize.toNat) % 2 ^ 64 := by
  have hoff := toNat_off h hne base
  have hle := Nat.mod_le base.toNat alignSize.toNat
  have hlt := base.isLt
  rw [BitVec.toNat_add, BitVec.toNat_sub, hoff]
  omega

/-! ## Layout -/

/-- The `n` bytes from `a` on lie among the `size` bytes from `base` on. -/
def Inside (a n base size : Word) : Prop :=
  base.toNat ≤ a.toNat ∧ a.toNat + n.toNat ≤ base.toNat + size.toNat

/-- What `malloc` promises of a block of `size` bytes it grants at `base`: it lies at an address
other than null that is aligned to eight bytes, and does not reach the end of the memory. -/
structure Granted (base size : Word) : Prop where
  nonnull : base ≠ 0
  aligned : 8 ∣ base.toNat
  fits : base.toNat + size.toNat < 2 ^ 64

/-- The block at `p` is laid out correctly. -/
structure LaidOut (nBytes alignSize base size p : Word) : Prop where
  aligned : alignSize.toNat ∣ p.toNat
  header : Inside (header p) 8 base size
  client : Inside p nBytes base size

/-- With the alignment `0`, which passes the check, the block is at null. -/
theorem block_zero (base : Word) : base - (base &&& (0 - 1)) + 0 = 0 := by
  rw [show (0 - 1 : Word) = BitVec.allOnes 64 from rfl, BitVec.and_allOnes, BitVec.sub_self]
  rfl

/-- Every block is aligned, whatever `malloc` returns. -/
theorem aligned_block {alignSize : Word} (h : alignSize &&& (alignSize - 1) = 0) (base : Word) :
    alignSize.toNat ∣ (base - (base &&& (alignSize - 1)) + alignSize).toNat := by
  by_cases hne : alignSize = 0
  · subst hne
    rw [block_zero]
  · obtain ⟨k, hk64, hk⟩ := exists_eq_two_pow h hne
    have hdvd : alignSize.toNat ∣ 2 ^ 64 := hk ▸ Nat.pow_dvd_pow 2 hk64.le
    rw [toNat_block h hne]
    exact (Nat.dvd_mod_iff hdvd).2 (Nat.dvd_add (Nat.dvd_sub_mod _) dvd_rfl)

/-- With room in front of it for the header, and a size that did not wrap around, a block is laid
out correctly. -/
theorem laidOut_of_le {nBytes alignSize base : Word} (h : alignSize &&& (alignSize - 1) = 0)
    (hbase : Granted base (nBytes + alignSize)) (hmin : 8 ≤ alignSize.toNat)
    (hsize : nBytes.toNat + alignSize.toNat < 2 ^ 64) :
    LaidOut nBytes alignSize base (nBytes + alignSize)
      (base - (base &&& (alignSize - 1)) + alignSize) := by
  have hne : alignSize ≠ 0 := by
    rintro rfl
    exact absurd hmin (by decide)
  obtain ⟨-, h8, hfits⟩ := hbase
  have hsum : (nBytes + alignSize).toNat = nBytes.toNat + alignSize.toNat := by
    rw [BitVec.toNat_add, Nat.mod_eq_of_lt hsize]
  have hlt := Nat.mod_lt base.toNat (show 0 < alignSize.toNat by omega)
  have hle := Nat.mod_le base.toNat alignSize.toNat
  -- The misalignment is a multiple of eight, so eight bytes less than the alignment at least.
  have h8align : 8 ∣ alignSize.toNat := by
    obtain ⟨k, -, hk⟩ := exists_eq_two_pow h hne
    have hpow : 2 ^ 3 ≤ 2 ^ k := hk ▸ hmin
    rw [hk]
    exact Nat.pow_dvd_pow 2 ((Nat.pow_le_pow_iff_right (show 1 < 2 by decide)).1 hpow)
  have h8off : 8 ∣ base.toNat % alignSize.toNat := (Nat.dvd_mod_iff h8align).2 h8
  have hp : (base - (base &&& (alignSize - 1)) + alignSize).toNat =
      base.toNat - base.toNat % alignSize.toNat + alignSize.toNat := by
    rw [toNat_block h hne, Nat.mod_eq_of_lt (by omega)]
  have hheader : (header (base - (base &&& (alignSize - 1)) + alignSize)).toNat =
      base.toNat - base.toNat % alignSize.toNat + alignSize.toNat - 8 := by
    rw [header, BitVec.toNat_sub, hp, show (8 : Word).toNat = 8 from rfl]
    omega
  have height : (8 : Word).toNat = 8 := rfl
  refine ⟨aligned_block h base, ?_, ?_⟩
  · constructor <;> omega
  · constructor <;> omega

/-- A block for which the header has no room reaches out of what was granted. -/
theorem not_inside_header {nBytes alignSize base : Word} (h : alignSize &&& (alignSize - 1) = 0)
    (hbase : Granted base (nBytes + alignSize)) (hmin : alignSize.toNat < 8) :
    ¬ Inside (header (base - (base &&& (alignSize - 1)) + alignSize)) 8 base
      (nBytes + alignSize) := by
  obtain ⟨hnull, h8, hfits⟩ := hbase
  have hne0 : base.toNat ≠ 0 := fun h => hnull (BitVec.eq_of_toNat_eq h)
  have height : (8 : Word).toNat = 8 := rfl
  rintro ⟨hlo, hhi⟩
  by_cases hne : alignSize = 0
  · subst hne
    have hnull : (header 0).toNat = 2 ^ 64 - 8 := rfl
    rw [block_zero, hnull] at hhi
    omega
  · have hoff : base.toNat % alignSize.toNat = 0 := by
      obtain ⟨k, -, hk⟩ := exists_eq_two_pow h hne
      have hpow : 2 ^ k < 2 ^ 3 := hk ▸ hmin
      have hk3 : k ≤ 3 := ((Nat.pow_lt_pow_iff_right (show 1 < 2 by decide)).1 hpow).le
      rw [hk]
      exact Nat.mod_eq_zero_of_dvd ((Nat.pow_dvd_pow 2 hk3).trans h8)
    have hlt := base.isLt
    have hp := toNat_block h hne base
    rw [hoff] at hp
    rw [header, BitVec.toNat_sub, hp, height] at hlo
    omega

/-- A block whose size has wrapped around is larger than what was granted. -/
theorem not_inside_client {nBytes alignSize base p : Word}
    (hsize : 2 ^ 64 ≤ nBytes.toNat + alignSize.toNat) :
    ¬ Inside p nBytes base (nBytes + alignSize) := by
  have hn := nBytes.isLt
  have ha := alignSize.isLt
  rintro ⟨hlo, hhi⟩
  rw [BitVec.toNat_add] at hhi
  omega

/-! ## Allocation -/

/-- What a call that returns has done. -/
theorem allocate_eq_ok {malloc : Word → Word} {m m' : ByteMem} {nBytes alignSize p : Word}
    (h : allocate malloc m nBytes alignSize = .ok (p, m')) :
    alignSize &&& (alignSize - 1) = 0 ∧
      p = malloc (nBytes + alignSize) - (malloc (nBytes + alignSize) &&& (alignSize - 1)) +
        alignSize ∧
      m' = m.store64 (header p) (malloc (nBytes + alignSize)) := by
  rw [allocate] at h
  split_ifs at h with hcheck
  cases h
  exact ⟨not_not.1 hcheck, rfl, rfl⟩

/-- **A block is laid out correctly exactly when the alignment is at least the size of the header
and the size of the request does not wrap around.** -/
theorem allocate_laidOut_iff {malloc : Word → Word} {m m' : ByteMem} {nBytes alignSize p : Word}
    (h : allocate malloc m nBytes alignSize = .ok (p, m'))
    (hbase : Granted (malloc (nBytes + alignSize)) (nBytes + alignSize)) :
    LaidOut nBytes alignSize (malloc (nBytes + alignSize)) (nBytes + alignSize) p ↔
      8 ≤ alignSize.toNat ∧ nBytes.toNat + alignSize.toNat < 2 ^ 64 := by
  obtain ⟨hcheck, rfl, -⟩ := allocate_eq_ok h
  constructor
  · intro hlaid
    refine ⟨?_, ?_⟩
    · by_contra hmin
      exact not_inside_header hcheck hbase (not_le.1 hmin) hlaid.header
    · by_contra hsize
      exact not_inside_client (not_lt.1 hsize) hlaid.client
  · rintro ⟨hmin, hsize⟩
    exact laidOut_of_le hcheck hbase hmin hsize

/-- A request of 100 bytes, at the default alignment. -/
theorem allocate_laidOut_iff_default :
    LaidOut 100 DEFAULT_ALIGN 0x1008 (100 + DEFAULT_ALIGN) 0x1010 ↔
      8 ≤ DEFAULT_ALIGN.toNat ∧ (100 : Word).toNat + DEFAULT_ALIGN.toNat < 2 ^ 64 :=
  @allocate_laidOut_iff (fun _ => 0x1008) (fun _ => 0) _ 100 DEFAULT_ALIGN 0x1010 rfl
    ⟨by decide, by decide, by decide⟩

/-- With the alignment `4`, the header begins four bytes before what `malloc` has granted. -/
theorem allocate_not_laidOut :
    ¬ ∀ (malloc : Word → Word) (m m' : ByteMem) (nBytes alignSize p : Word),
      allocate malloc m nBytes alignSize = .ok (p, m') →
      Granted (malloc (nBytes + alignSize)) (nBytes + alignSize) →
      LaidOut nBytes alignSize (malloc (nBytes + alignSize)) (nBytes + alignSize) p := by
  intro h
  have hlaid := h (fun _ => 0x1000) (fun _ => 0) _ 16 4 0x1004 rfl
    ⟨by decide, by decide, by decide⟩
  exact absurd hlaid.header.1 (by decide)

/-- **`deallocate` frees what `malloc` granted**, when the header has not been written to. -/
theorem deallocate_allocate {malloc : Word → Word} {m m' : ByteMem} {nBytes alignSize p : Word}
    (h : allocate malloc m nBytes alignSize = .ok (p, m')) :
    deallocate m' p = malloc (nBytes + alignSize) := by
  obtain ⟨-, -, rfl⟩ := allocate_eq_ok h
  exact ByteMem.load64_store64 m (header p) _

end AlignedMem

end DBUtl
