import DBUtl.AlignedMemProof
import DBUtl.Lib.Ledger
import Mathlib.Algebra.Order.Group.Multiset
import Mathlib.Data.List.Pairwise
import Mathlib.Data.Multiset.Filter

/-!
# Runs of the allocator

A program allocates blocks, writes into them and gives them back, in any order, and everything
lies in one memory: the bytes of the clients and, between them, the header words `deallocate`
relies on. `malloc` and `free` are the environment. A call carries what they choose: where the
granted block is, and the memory they leave behind, which is the old one on every block that is
still granted. What is granted after `deallocate` depends on the address that `free` is given.

The state remembers, for every live block, what `malloc` granted for it. The invariant is that
the headers still say the same. A write inside a client region cannot break it, because the
regions and the headers of all live blocks lie apart (`disjoint_client_header`).
-/

namespace DBUtl

namespace AlignedMem

open ByteMem

/-- What `malloc` granted: `size` bytes from `base` on. -/
structure Grant where
  base : Word
  size : Word
  deriving DecidableEq

def Grant.bytes (g : Grant) : Set Word := range g.base g.size

/-- A block as the client knows it: the address, the size and the alignment it asked for. The
last field is what `malloc` granted when the block was allocated. -/
structure Block where
  p : Word
  nBytes : Word
  alignSize : Word
  grant : Grant
  deriving DecidableEq

/-- The bytes of the client. -/
def Block.client (b : Block) : Set Word := range b.p b.nBytes

/-- The bytes of the header word. -/
def Block.headerBytes (b : Block) : Set Word := range (header b.p) 8

/-- The memory, what `malloc` has granted and `free` has not taken back, and the live blocks. -/
structure Heap where
  mem : ByteMem
  grants : List Grant
  live : List Block

/-- Nothing is allocated. -/
def Heap.init (m : ByteMem) : Heap := ⟨m, [], []⟩

inductive Call
  /-- `malloc` returns `base` and leaves the memory `m`. -/
  | allocate (nBytes alignSize base : Word) (m : ByteMem)
  | allocateClear (nBytes alignSize base : Word) (m : ByteMem)
  | write (a : Word) (v : BitVec 8)
  /-- `free` leaves the memory `m`. -/
  | deallocate (p : Word) (m : ByteMem)

inductive Ret
  | pointer (p : Word)
  | threw (e : String)
  | written
  | freed (base : Word)
  deriving DecidableEq

/-- What becomes of the heap when an allocation returns. -/
def Heap.allocated (h : Heap) (nBytes alignSize base : Word) :
    Except String (Word × ByteMem) → Ret × Heap
  | .error e => (.threw e, h)
  | .ok (p, m) =>
    (.pointer p, ⟨m, ⟨base, nBytes + alignSize⟩ :: h.grants,
      ⟨p, nBytes, alignSize, ⟨base, nBytes + alignSize⟩⟩ :: h.live⟩)

def heap : Machine Heap Call Ret where
  step h
    | .allocate nBytes alignSize base m =>
      h.allocated nBytes alignSize base (allocate (fun _ => base) m nBytes alignSize)
    | .allocateClear nBytes alignSize base m =>
      h.allocated nBytes alignSize base (allocateClear (fun _ => base) m nBytes alignSize)
    | .write a v => (.written, { h with mem := Function.update h.mem a v })
    | .deallocate p m =>
      let base := deallocate h.mem p
      (.freed base, ⟨m, h.grants.filter (·.base ≠ base), h.live.filter (·.p ≠ p)⟩)

/-! ## What is asked of a run -/

/-- The request is one the header has room for: the alignment is a power of two of at least the
eight bytes of the header, and the size does not wrap around. -/
structure Request (nBytes alignSize : Word) : Prop where
  isPow : ∃ k, alignSize.toNat = 2 ^ k
  min : 8 ≤ alignSize.toNat
  size : nBytes.toNat + alignSize.toNat < 2 ^ 64

/-- `malloc` grants a block that is apart from all it has granted before, and leaves those as they
are. -/
structure Heap.Grants (h : Heap) (g : Grant) (m : ByteMem) : Prop where
  granted : Granted g.base g.size
  apart : ∀ g' ∈ h.grants, Disjoint g.bytes g'.bytes
  frame : ∀ g' ∈ h.grants, Set.EqOn m h.mem g'.bytes

/-- A client writes only to its own bytes and gives back only what is live, and `free` leaves the
blocks that stay granted as they are. -/
def Admissible (h : Heap) : Call → Prop
  | .allocate nBytes alignSize base m | .allocateClear nBytes alignSize base m =>
    Request nBytes alignSize ∧ h.Grants ⟨base, nBytes + alignSize⟩ m
  | .write a _ => ∃ b ∈ h.live, a ∈ b.client
  | .deallocate p m =>
    (∃ b ∈ h.live, b.p = p) ∧
      ∀ g ∈ h.grants, g.base ≠ deallocate h.mem p → Set.EqOn m h.mem g.bytes

/-! ## A live block -/

/-- The block lies in what was granted for it, and its header says so. -/
structure Block.Sound (m : ByteMem) (b : Block) : Prop where
  granted : Granted b.grant.base b.grant.size
  laidOut : LaidOut b.nBytes b.alignSize b.grant.base b.grant.size b.p
  header : deallocate m b.p = b.grant.base

namespace Block.Sound

variable {m m' : ByteMem} {b : Block}

theorem toNat_header (h : b.Sound m) : (AlignedMem.header b.p).toNat + 8 = b.p.toNat := by
  have hhi : (AlignedMem.header b.p).toNat + 8 ≤ b.grant.base.toNat + b.grant.size.toNat :=
    h.laidOut.header.2
  have hfits := h.granted.fits
  have hp : b.p = AlignedMem.header b.p + 8 := (BitVec.sub_add_cancel _ _).symm
  rw [hp, BitVec.toNat_add, show (8 : Word).toNat = 8 from rfl, ← hp, Nat.mod_eq_of_lt (by omega)]

theorem header_fits (h : b.Sound m) : (AlignedMem.header b.p).toNat + 8 ≤ 2 ^ 64 := by
  rw [h.toNat_header]
  exact b.p.isLt.le

theorem client_fits (h : b.Sound m) : b.p.toNat + b.nBytes.toNat ≤ 2 ^ 64 :=
  h.laidOut.client.2.trans h.granted.fits.le

theorem client_subset (h : b.Sound m) : b.client ⊆ b.grant.bytes :=
  range_subset h.laidOut.client.1 h.laidOut.client.2

theorem headerBytes_subset (h : b.Sound m) : b.headerBytes ⊆ b.grant.bytes :=
  range_subset h.laidOut.header.1 h.laidOut.header.2

theorem disjoint_client_header (h : b.Sound m) : Disjoint b.client b.headerBytes :=
  (disjoint_range h.toNat_header.le).symm

theorem base_mem (h : b.Sound m) : b.grant.base ∈ b.grant.bytes := by
  have hlo := h.laidOut.header.1
  have hhi : (AlignedMem.header b.p).toNat + 8 ≤ b.grant.base.toNat + b.grant.size.toNat :=
    h.laidOut.header.2
  exact left_mem_range (by omega)

theorem header_mem (h : b.Sound m) : AlignedMem.header b.p ∈ b.grant.bytes :=
  h.headerBytes_subset (left_mem_range (by decide))

/-- Only the eight bytes of the header matter. -/
theorem of_eqOn (h : b.Sound m) (heq : Set.EqOn m' m b.headerBytes) : b.Sound m' where
  granted := h.granted
  laidOut := h.laidOut
  header := (load64_congr h.header_fits heq).trans h.header

end Block.Sound

/-! ## The invariant -/

structure Heap.WF (h : Heap) : Prop where
  grants_eq : h.grants = h.live.map Block.grant
  apart : h.live.Pairwise fun b c => Disjoint b.grant.bytes c.grant.bytes
  sound : ∀ b ∈ h.live, b.Sound h.mem

namespace Heap.WF

variable {h : Heap} {b c : Block}

theorem init (m : ByteMem) : (Heap.init m).WF :=
  ⟨rfl, List.Pairwise.nil, fun _ hb => absurd hb List.not_mem_nil⟩

theorem grant_mem (hwf : h.WF) (hb : b ∈ h.live) : b.grant ∈ h.grants := by
  rw [hwf.grants_eq]
  exact List.mem_map_of_mem hb

theorem disjoint_grants (hwf : h.WF) (hb : b ∈ h.live) (hc : c ∈ h.live) (hne : b ≠ c) :
    Disjoint b.grant.bytes c.grant.bytes := by
  have : Std.Symm fun b c : Block => Disjoint b.grant.bytes c.grant.bytes :=
    ⟨fun _ _ hd => hd.symm⟩
  exact hwf.apart.forall hb hc hne

/-- An address lies in the grant of one live block at most. -/
theorem eq_of_mem (hwf : h.WF) (hb : b ∈ h.live) (hc : c ∈ h.live) {x : Word}
    (hxb : x ∈ b.grant.bytes) (hxc : x ∈ c.grant.bytes) : b = c := by
  by_contra hne
  exact Set.disjoint_left.1 (hwf.disjoint_grants hb hc hne) hxb hxc

theorem eq_of_p (hwf : h.WF) (hb : b ∈ h.live) (hc : c ∈ h.live) (heq : b.p = c.p) : b = c := by
  have hxb := (hwf.sound b hb).header_mem
  rw [heq] at hxb
  exact hwf.eq_of_mem hb hc hxb (hwf.sound c hc).header_mem

theorem eq_of_base (hwf : h.WF) (hb : b ∈ h.live) (hc : c ∈ h.live)
    (heq : b.grant.base = c.grant.base) : b = c := by
  have hxb := (hwf.sound b hb).base_mem
  rw [heq] at hxb
  exact hwf.eq_of_mem hb hc hxb (hwf.sound c hc).base_mem

/-- No client region has a byte of a header, be it that of the same block. -/
theorem disjoint_client_header (hwf : h.WF) (hb : b ∈ h.live) (hc : c ∈ h.live) :
    Disjoint b.client c.headerBytes := by
  by_cases hbc : b = c
  · subst hbc
    exact (hwf.sound b hb).disjoint_client_header
  · exact (hwf.disjoint_grants hb hc hbc).mono (hwf.sound b hb).client_subset
      (hwf.sound c hc).headerBytes_subset

/-- **The client regions of the live blocks are apart.** -/
theorem pairwise_client (hwf : h.WF) :
    h.live.Pairwise fun b c => Disjoint b.client c.client :=
  hwf.apart.imp_of_mem fun hb hc hd =>
    hd.mono (hwf.sound _ hb).client_subset (hwf.sound _ hc).client_subset

/-- The addresses `malloc` has granted are told apart. -/
theorem nodup_bases (hwf : h.WF) : (h.grants.map Grant.base).Nodup := by
  rw [hwf.grants_eq, List.map_map]
  refine List.pairwise_map.2 (hwf.apart.imp_of_mem fun {b c} hb hc hd heq => ?_)
  have hbase : b.grant.base = c.grant.base := heq
  have hxb := (hwf.sound b hb).base_mem
  rw [hbase] at hxb
  exact Set.disjoint_left.1 hd hxb (hwf.sound c hc).base_mem

/-- What is left of the grants when the block at `p` goes are the grants of the blocks left. -/
theorem filter_grants (hwf : h.WF) (hb : b ∈ h.live) :
    h.grants.filter (·.base ≠ b.grant.base) = (h.live.filter (·.p ≠ b.p)).map Block.grant := by
  rw [hwf.grants_eq, List.filter_map]
  congr 1
  refine List.filter_congr fun c hc => ?_
  have hiff : c.grant.base = b.grant.base ↔ c.p = b.p := by
    constructor
    · intro heq
      rw [hwf.eq_of_base hc hb heq]
    · intro heq
      rw [hwf.eq_of_p hc hb heq]
  simp [hiff]

/-- A memory that is the old one on every header keeps the invariant. -/
theorem of_eqOn (hwf : h.WF) {m : ByteMem}
    (heq : ∀ b ∈ h.live, Set.EqOn m h.mem b.headerBytes) : Heap.WF { h with mem := m } where
  grants_eq := hwf.grants_eq
  apart := hwf.apart
  sound b hb := (hwf.sound b hb).of_eqOn (heq b hb)

end Heap.WF

/-! ## Allocations -/

theorem Request.check {nBytes alignSize : Word} (h : Request nBytes alignSize) :
    alignSize &&& (alignSize - 1) = 0 := by
  have hne : alignSize ≠ 0 := by
    rintro rfl
    exact absurd h.min (by decide)
  have hne' : alignSize.toNat ≠ 0 := fun h0 => hne (BitVec.eq_of_toNat_eq h0)
  have hand := (Nat.and_sub_one_eq_zero_iff_isPowerOfTwo hne').2 h.isPow
  apply BitVec.eq_of_toNat_eq
  rw [BitVec.toNat_and, toNat_sub_one hne, hand]
  rfl

/-- The block `b`, in the memory `m`, is new to the heap. -/
structure Heap.Fresh (h : Heap) (b : Block) (m : ByteMem) : Prop where
  sound : b.Sound m
  apart : ∀ g ∈ h.grants, Disjoint b.grant.bytes g.bytes
  frame : ∀ g ∈ h.grants, Set.EqOn m h.mem g.bytes

theorem Heap.Fresh.wf {h : Heap} {b : Block} {m : ByteMem} (hf : h.Fresh b m) (hwf : h.WF) :
    Heap.WF ⟨m, b.grant :: h.grants, b :: h.live⟩ where
  grants_eq := by rw [hwf.grants_eq, List.map_cons]
  apart := List.pairwise_cons.2 ⟨fun c hc => hf.apart _ (hwf.grant_mem hc), hwf.apart⟩
  sound c hc := by
    rcases List.mem_cons.1 hc with rfl | hc
    · exact hf.sound
    · have hsound := hwf.sound c hc
      exact hsound.of_eqOn ((hf.frame _ (hwf.grant_mem hc)).mono hsound.headerBytes_subset)

section Allocation

variable {h : Heap} {nBytes alignSize base : Word} {m : ByteMem}

theorem allocate_fresh (hr : Request nBytes alignSize)
    (hg : h.Grants ⟨base, nBytes + alignSize⟩ m) :
    ∃ p m', allocate (fun _ => base) m nBytes alignSize = .ok (p, m') ∧
      h.Fresh ⟨p, nBytes, alignSize, ⟨base, nBytes + alignSize⟩⟩ m' := by
  have hok : allocate (fun _ => base) m nBytes alignSize =
      .ok (base - (base &&& (alignSize - 1)) + alignSize,
        m.store64 (header (base - (base &&& (alignSize - 1)) + alignSize)) base) := by
    rw [allocate, if_neg (not_not.2 hr.check)]
  have hsound : Block.Sound _ ⟨_, nBytes, alignSize, ⟨base, nBytes + alignSize⟩⟩ :=
    ⟨hg.granted, laidOut_of_le hr.check hg.granted hr.min hr.size, deallocate_allocate hok⟩
  refine ⟨_, _, hok, hsound, hg.apart, fun g hgm => ?_⟩
  -- The header is in what was just granted, so the store stays out of the other grants.
  have hdis := (hg.apart g hgm).symm.mono_right hsound.headerBytes_subset
  exact (store64_eqOn m base hsound.header_fits hdis).trans (hg.frame g hgm)

theorem allocateClear_fresh (hr : Request nBytes alignSize)
    (hg : h.Grants ⟨base, nBytes + alignSize⟩ m) :
    ∃ p m', allocateClear (fun _ => base) m nBytes alignSize = .ok (p, m') ∧
      h.Fresh ⟨p, nBytes, alignSize, ⟨base, nBytes + alignSize⟩⟩ m' ∧
      ∀ x ∈ range p nBytes, m' x = 0 := by
  obtain ⟨p, m', hok, hf⟩ := allocate_fresh hr hg
  have hfits : p.toNat + nBytes.toNat ≤ 2 ^ 64 := hf.sound.client_fits
  have hclear : allocateClear (fun _ => base) m nBytes alignSize =
      .ok (p, m'.fill p 0 nBytes) := by
    rw [allocateClear, hok]
  refine ⟨p, _, hclear, ⟨?_, hf.apart, fun g hgm => ?_⟩, fun x hx => fill_of_mem hfits hx⟩
  · exact hf.sound.of_eqOn (fill_eqOn m' 0 hfits hf.sound.disjoint_client_header.symm)
  · have hdis := (hf.apart g hgm).symm.mono_right hf.sound.client_subset
    exact (fill_eqOn m' 0 hfits hdis).trans (hf.frame g hgm)

end Allocation

/-! ## Steps -/

section Steps

variable {h : Heap} {nBytes alignSize base p a : Word} {m : ByteMem}

theorem step_allocate (hok : Admissible h (.allocate nBytes alignSize base m)) :
    ∃ p m', h.Fresh ⟨p, nBytes, alignSize, ⟨base, nBytes + alignSize⟩⟩ m' ∧
      heap.step h (.allocate nBytes alignSize base m) =
        (.pointer p, ⟨m', ⟨base, nBytes + alignSize⟩ :: h.grants,
          ⟨p, nBytes, alignSize, ⟨base, nBytes + alignSize⟩⟩ :: h.live⟩) := by
  obtain ⟨p, m', heq, hf⟩ := allocate_fresh hok.1 hok.2
  refine ⟨p, m', hf, ?_⟩
  simp only [heap, heq]
  rfl

theorem step_allocateClear (hok : Admissible h (.allocateClear nBytes alignSize base m)) :
    ∃ p m', h.Fresh ⟨p, nBytes, alignSize, ⟨base, nBytes + alignSize⟩⟩ m' ∧
      (∀ x ∈ range p nBytes, m' x = 0) ∧
      heap.step h (.allocateClear nBytes alignSize base m) =
        (.pointer p, ⟨m', ⟨base, nBytes + alignSize⟩ :: h.grants,
          ⟨p, nBytes, alignSize, ⟨base, nBytes + alignSize⟩⟩ :: h.live⟩) := by
  obtain ⟨p, m', heq, hf, hzero⟩ := allocateClear_fresh hok.1 hok.2
  refine ⟨p, m', hf, hzero, ?_⟩
  simp only [heap, heq]
  rfl

/-- `free` is given what `malloc` granted for the block. -/
theorem step_deallocate (hwf : h.WF) {b : Block} (hb : b ∈ h.live) :
    heap.step h (.deallocate b.p m) =
      (.freed b.grant.base,
        ⟨m, (h.live.filter (·.p ≠ b.p)).map Block.grant, h.live.filter (·.p ≠ b.p)⟩) := by
  rw [← hwf.filter_grants hb, ← (hwf.sound b hb).header]
  rfl

/-- **Every step keeps the invariant.** -/
theorem wf_step {c : Call} (hwf : h.WF) (hok : Admissible h c) : (heap.step h c).2.WF := by
  cases c with
  | allocate nBytes alignSize base m =>
    obtain ⟨p, m', hf, heq⟩ := step_allocate hok
    rw [heq]
    exact hf.wf hwf
  | allocateClear nBytes alignSize base m =>
    obtain ⟨p, m', hf, -, heq⟩ := step_allocateClear hok
    rw [heq]
    exact hf.wf hwf
  | write a v =>
    obtain ⟨b, hb, ha⟩ := hok
    refine hwf.of_eqOn fun c hc => update_eqOn h.mem v ?_
    exact Set.disjoint_left.1 (hwf.disjoint_client_header hb hc) ha
  | deallocate p m =>
    obtain ⟨⟨b, hb, rfl⟩, hframe⟩ := hok
    rw [step_deallocate hwf hb]
    refine ⟨rfl, hwf.apart.filter _, fun c hc => ?_⟩
    obtain ⟨hc, hne⟩ := List.mem_filter.1 hc
    have hsound := hwf.sound c hc
    have hbase : c.grant.base ≠ deallocate h.mem b.p := by
      rw [(hwf.sound b hb).header]
      intro heq
      rw [hwf.eq_of_base hc hb heq] at hne
      simp at hne
    exact hsound.of_eqOn ((hframe _ (hwf.grant_mem hc) hbase).mono hsound.headerBytes_subset)

end Steps

/-! ## Runs -/

/-- What `malloc` grants in a call. -/
def granted : Call → Multiset Word
  | .allocate _ _ base _ | .allocateClear _ _ base _ => {base}
  | .write _ _ | .deallocate _ _ => 0

/-- What `free` takes back, by the answer. -/
def freed : Ret → Multiset Word
  | .freed base => {base}
  | .pointer _ | .threw _ | .written => 0

/-- The blocks that are granted, by their addresses. -/
def Heap.bases (h : Heap) : Multiset Word := h.grants.map Grant.base

theorem balance {h : Heap} {c : Call} (hwf : h.WF) (hok : Admissible h c) :
    freed (heap.step h c).1 + (heap.step h c).2.bases = granted c + h.bases := by
  cases c with
  | allocate nBytes alignSize base m =>
    obtain ⟨p, m', -, heq⟩ := step_allocate hok
    rw [heq, freed, granted, zero_add]
    rfl
  | allocateClear nBytes alignSize base m =>
    obtain ⟨p, m', -, -, heq⟩ := step_allocateClear hok
    rw [heq, freed, granted, zero_add]
    rfl
  | write a v => rfl
  | deallocate p m =>
    obtain ⟨⟨b, hb, rfl⟩, -⟩ := hok
    have hmem : b.grant.base ∈ h.grants.map Grant.base :=
      List.mem_map_of_mem (hwf.grant_mem hb)
    have hfilter : (h.grants.filter (·.base ≠ b.grant.base)).map Grant.base =
        (h.grants.map Grant.base).erase b.grant.base := by
      rw [hwf.nodup_bases.erase_eq_filter, List.filter_map]
      congr 1
      exact List.filter_congr fun g _ => Bool.eq_iff_iff.2 (by simp)
    rw [step_deallocate hwf hb, ← hwf.filter_grants hb, freed, granted, zero_add, Heap.bases,
      hfilter]
    exact Multiset.coe_eq_coe.2 (List.perm_cons_erase hmem).symm

/-- **The allocator is sound over every run.** In whatever state a run reaches, the client regions
are apart. Giving back a live block frees what was granted for it, which is still granted then and
no longer afterwards; over the run, what was freed and what is still granted are what `malloc` has
granted, each once. A cleared block is zero, and clearing it changes no other block. -/
theorem heap_sound (m : ByteMem) (cs : List Call)
    (hcs : heap.Along Admissible (Heap.init m) cs) :
    let h := heap.exec (Heap.init m) cs
    h.live.Pairwise (fun b c => Disjoint b.client c.client) ∧
    (∀ b ∈ h.live, ∀ m', (heap.step h (.deallocate b.p m')).1 = .freed b.grant.base ∧
      b.grant.base ∈ h.bases ∧ b.grant.base ∉ (heap.step h (.deallocate b.p m')).2.bases) ∧
    ((heap.trace (Heap.init m) cs).map freed).sum + h.bases = (cs.map granted).sum ∧
    h.bases.Nodup ∧
    ∀ nBytes alignSize base m', Admissible h (.allocateClear nBytes alignSize base m') →
      ∃ p h', heap.step h (.allocateClear nBytes alignSize base m') = (.pointer p, h') ∧
        h'.live = ⟨p, nBytes, alignSize, ⟨base, nBytes + alignSize⟩⟩ :: h.live ∧
        (∀ x ∈ range p nBytes, h'.mem x = 0) ∧
        ∀ b ∈ h.live, Set.EqOn h'.mem h.mem b.client ∧ Set.EqOn h'.mem h.mem b.headerBytes := by
  intro h
  have hwf : h.WF := Machine.exec_invariant (fun s c => wf_step) cs (Heap.WF.init m) hcs
  have hsum := Machine.sum_trace (fun s c => wf_step) (fun s c => balance) cs (Heap.WF.init m) hcs
  refine ⟨hwf.pairwise_client, fun b hb m' => ?_, ?_, hwf.nodup_bases, ?_⟩
  · have hstep := step_deallocate (m := m') hwf hb
    refine ⟨by rw [hstep], List.mem_map_of_mem (hwf.grant_mem hb), ?_⟩
    rw [hstep, ← hwf.filter_grants hb, Heap.bases, Multiset.mem_coe, List.mem_map]
    rintro ⟨g, hg, heq⟩
    simp [heq] at hg
  · have hnone : (Heap.init m).bases = 0 := rfl
    rwa [hnone, add_zero] at hsum
  · intro nBytes alignSize base m' hok
    obtain ⟨p, m'', hf, hzero, heq⟩ := step_allocateClear hok
    refine ⟨p, _, heq, rfl, hzero, fun b hb => ?_⟩
    have hframe := hf.frame _ (hwf.grant_mem hb)
    exact ⟨hframe.mono (hwf.sound b hb).client_subset,
      hframe.mono (hwf.sound b hb).headerBytes_subset⟩

/-- Two blocks, the first of which is written to before the second is allocated. -/
def twoBlocks : List Call :=
  [.allocate 16 8 0x1000 fun _ => 7,
    .write 0x1008 1,
    .allocateClear 16 16 0x2000
      (Function.update (ByteMem.store64 (fun _ => 7) 0x1000 0x1000) 0x1008 1)]

/-- The memory with both. -/
def twoMem : ByteMem := (heap.exec (Heap.init fun _ => 7) twoBlocks).mem

theorem twoBlocks_along (more : List Call)
    (hmore : heap.Along Admissible (heap.exec (Heap.init fun _ => 7) twoBlocks) more) :
    heap.Along Admissible (Heap.init fun _ => 7) (twoBlocks ++ more) := by
  refine ⟨⟨⟨⟨3, by decide⟩, by decide, by decide⟩, ⟨by decide, by decide, by decide⟩, ?_, ?_⟩,
    ⟨⟨0x1008, 16, 8, 0x1000, 24⟩, List.mem_cons_self, by decide, by decide⟩,
    ⟨⟨⟨4, by decide⟩, by decide, by decide⟩, ⟨by decide, by decide, by decide⟩, ?_, ?_⟩, hmore⟩
  · intro g hg
    exact absurd hg List.not_mem_nil
  · intro g hg
    exact absurd hg List.not_mem_nil
  · intro g hg
    obtain rfl := List.mem_singleton.1 hg
    exact (disjoint_range (by decide)).symm
  · intro g hg x hx
    rfl

/-- The first block is given back, and a third one gets its place. -/
theorem heap_sound_two :
    let cs := twoBlocks ++ [.deallocate 0x1008 twoMem, .allocate 8 16 0x1000 twoMem]
    let h := heap.exec (Heap.init fun _ => 7) cs
    h.live = [⟨0x1010, 8, 16, 0x1000, 24⟩, ⟨0x2010, 16, 16, 0x2000, 32⟩] ∧
      h.live.Pairwise (fun b c => Disjoint b.client c.client) ∧
      ((heap.trace (Heap.init fun _ => 7) cs).map freed).sum + h.bases =
        {0x1000, 0x2000, 0x1000} := by
  intro cs h
  have hok : heap.Along Admissible (Heap.init fun _ => 7) cs := by
    refine twoBlocks_along _ ⟨⟨⟨_, List.mem_cons_of_mem _ List.mem_cons_self, rfl⟩,
      fun g hg hne x hx => rfl⟩, ⟨⟨⟨4, by decide⟩, by decide, by decide⟩,
      ⟨by decide, by decide, by decide⟩, ?_, fun g hg x hx => rfl⟩, trivial⟩
    intro g hg
    obtain rfl := List.mem_singleton.1 (show g ∈ [(⟨0x2000, 32⟩ : Grant)] from hg)
    exact disjoint_range (by decide)
  obtain ⟨hpairwise, -, hsum, -⟩ := heap_sound (fun _ => 7) cs hok
  exact ⟨rfl, hpairwise, hsum⟩

end AlignedMem

end DBUtl
