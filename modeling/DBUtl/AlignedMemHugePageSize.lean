import DBUtl.AlignedMemHugePageProof

/-!
# Segments that are too small

The number of pages is counted in 64 bits, and cut to an `int`; the size of the segment is the
product with `PAGESIZE`, cut to an `int` again, and then widened with its sign. Of the number of
pages the size keeps the low 11 bits, the highest of them as the sign. Where the sign is set, the
size comes out among the last two gigabytes of 64 bits, and no such request is larger. Elsewhere the
size is right up to 1023 pages, and too small beyond.
-/

namespace DBUtl

namespace HugePage

open AlignedMem (Word)

/-- The sizes that `shmget` is asked for. -/
def requested (effects : List Effect) : List Word :=
  effects.filterMap fun
    | .shmget _ size => some size
    | _ => none

variable {st : Statics}

/-! ## The request -/

/-- The size that `shmget` is asked for, for `nBytes`. -/
def sizeFor (nBytes : Word) : Word := toSize (pagesFor nBytes * PAGESIZE)

theorem requested_attach (sys : System) (st : Statics) (pages : Int32)
    (h : st.numSegments < MAX_SEGMENTS) :
    requested (attach sys st pages h).1 = [toSize (pages * PAGESIZE)] := by
  simp only [attach]
  split
  · rfl
  · split <;> rfl

/-- A call that returns has asked once. -/
theorem requested_allocate {sys : System} {nBytes alignSize : Word}
    (hret : (allocate sys st nBytes alignSize).2.1.Returns) :
    requested (allocate sys st nBytes alignSize).1 = [sizeFor nBytes] := by
  obtain ⟨h, reported, hreported, heq⟩ := allocate_eq_attach hret
  rw [heq, requested, List.filterMap_append]
  -- the message about pages is no request
  rcases hreported with rfl | rfl
  · exact requested_attach sys st (pagesFor nBytes) h
  · exact requested_attach sys st (pagesFor nBytes) h

/-! ## Its size -/

/-- The number of pages, before it is cut. -/
def pageCount (nBytes : ℕ) : ℕ := 1 + (nBytes - 1) / 2 ^ 21

theorem toNat_pageCount {nBytes : Word} (h : 1 ≤ nBytes.toNat) :
    (1 + (nBytes - 1) / toSize PAGESIZE).toNat = pageCount nBytes.toNat := by
  have hlt := nBytes.isLt
  have hone : (1 : Word).toNat = 1 := rfl
  have hpage : (toSize PAGESIZE).toNat = 2 ^ 21 := by decide
  have hsub : (nBytes - 1).toNat = nBytes.toNat - 1 := by
    rw [BitVec.toNat_sub, hone]
    omega
  rw [BitVec.toNat_add, BitVec.toNat_udiv, hsub, hpage, hone, pageCount]
  omega

/-- **The size**, of 11 bits of the number of pages. -/
theorem toNat_sizeFor {nBytes : Word} (h : 1 ≤ nBytes.toNat) :
    (sizeFor nBytes).toNat =
      pageCount nBytes.toNat % 2 ^ 11 * 2 ^ 21 +
        if 2 ^ 10 ≤ pageCount nBytes.toNat % 2 ^ 11 then 2 ^ 64 - 2 ^ 32 else 0 := by
  have hproduct : (pagesFor nBytes * PAGESIZE).toBitVec.toNat =
      pageCount nBytes.toNat % 2 ^ 11 * 2 ^ 21 := by
    have hpages : (pagesFor nBytes).toBitVec.toNat = pageCount nBytes.toNat % 2 ^ 32 := by
      rw [pagesFor, toInt, Int32.toBitVec_ofBitVec, BitVec.toNat_setWidth, toNat_pageCount h]
    have hpage : PAGESIZE.toBitVec.toNat = 2 ^ 21 := by decide
    rw [Int32.toBitVec_mul, BitVec.toNat_mul, hpages, hpage]
    omega
  have hsign : (pagesFor nBytes * PAGESIZE).toBitVec.msb =
      decide (2 ^ 10 ≤ pageCount nBytes.toNat % 2 ^ 11) := by
    rw [BitVec.msb_eq_decide, hproduct, decide_eq_decide]
    omega
  rw [sizeFor, toSize, BitVec.toNat_signExtend, BitVec.toNat_setWidth, hproduct, hsign,
    Nat.mod_eq_of_lt (by omega)]
  simp only [decide_eq_true_eq]

theorem le_sizeFor_iff {nBytes : Word} (h : 1 ≤ nBytes.toNat) :
    nBytes ≤ sizeFor nBytes ↔
      nBytes.toNat ≤ 2 ^ 32 - 2 ^ 21 ∨ 2 ^ 10 ≤ pageCount nBytes.toNat % 2 ^ 11 := by
  have hlt := nBytes.isLt
  rw [BitVec.le_def, toNat_sizeFor h, pageCount]
  split
  · omega
  · omega

/-- **The segment covers the request** up to 2047 pages, and beyond that if the number of pages has
its bit 10 set. -/
theorem requested_covers_iff (sys : System) (st : Statics) (nBytes alignSize : Word)
    (h : 1 ≤ nBytes.toNat) (hret : (allocate sys st nBytes alignSize).2.1.Returns) :
    (∃ size, requested (allocate sys st nBytes alignSize).1 = [size] ∧ nBytes ≤ size) ↔
      nBytes.toNat ≤ 2 ^ 32 - 2 ^ 21 ∨ 2 ^ 10 ≤ pageCount nBytes.toNat % 2 ^ 11 := by
  rw [requested_allocate hret, ← le_sizeFor_iff h]
  constructor
  · rintro ⟨size, hsize, hle⟩
    rwa [List.cons.inj hsize |>.1]
  · intro hle
    exact ⟨sizeFor nBytes, rfl, hle⟩

/-- One gigabyte. -/
theorem requested_covers_one :
    ∃ size, requested (allocate (answering 3 0x40000000) Statics.init 0x40000000 8).1 = [size] ∧
      0x40000000 ≤ size :=
  (requested_covers_iff (answering 3 0x40000000) Statics.init 0x40000000 8 (by decide) trivial).mpr
    (Or.inl (by decide))

/-- Four gigabytes and a byte get a segment of one page. -/
theorem not_requested_covers :
    ¬ ∀ (sys : System) (st : Statics) (nBytes alignSize : Word),
      (∀ key size, 0 < size → ¬ sys.shmget key size < 0) → (∀ shmid, sys.shmat shmid ≠ -1) →
        1 ≤ nBytes.toNat → (allocate sys st nBytes alignSize).2.1.Returns →
          ∃ size, requested (allocate sys st nBytes alignSize).1 = [size] ∧ nBytes ≤ size := by
  intro hall
  have hid : ¬ (3 : Int32) < 0 := by decide
  have haddr : (0x40000000 : Word) ≠ -1 := by decide
  obtain ⟨size, hsize, hle⟩ := hall (answering 3 0x40000000) Statics.init 0x100000001 8
    (fun _ _ _ => hid) (fun _ => haddr) (by decide) trivial
  have hpage : requested (allocate (answering 3 0x40000000) Statics.init 0x100000001 8).1 =
      [0x200000] := by decide
  obtain rfl : 0x200000 = size := List.cons.inj (hpage.symm.trans hsize) |>.1
  exact absurd hle (by decide)

end HugePage

end DBUtl
