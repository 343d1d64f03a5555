import DBUtl.AlignedMemHeap

/-!
# What the blocks hold

To a program an allocator is a store of separate arrays: each allocation makes a new one, whose
bytes say nothing yet or are all zero, a write changes one byte of one array, and giving an array
back leaves the others alone. The code has one memory instead, in which every block comes with a
header, `malloc` may place a block wherever nothing is granted, and `malloc` and `free` may change
whatever is not granted.

**Theorem (`contents_refine`).** In every run the memory refines the store that the program sees in
its calls and their answers: the live blocks are the arrays, no two of them share a byte, and every
byte that was written or cleared reads back what was last put there.

The step lemma follows the calls. A write lies in the block of one array and misses the headers. An
allocation puts its header, and its zeros, into what `malloc` has just granted, which no array
reaches into; `malloc` and `free` leave alone what the arrays lie in.
-/

namespace DBUtl

namespace AlignedMem

open ByteMem

/-! ## The store -/

/-- An allocation as the program sees it: an array of `nBytes` bytes, which it reaches through the
pointer `p`. A byte that was neither written nor cleared is `none`. -/
structure Owned where
  p : Word
  nBytes : Word
  bytes : Word → Option (BitVec 8)

namespace Owned

def allocated (p nBytes : Word) : Owned := ⟨p, nBytes, fun _ => none⟩

def cleared (p nBytes : Word) : Owned := ⟨p, nBytes, fun _ => some 0#8⟩

/-- The index that an address has in the array. -/
def index (o : Owned) (a : Word) : Word := a - o.p

/-- Write `v` to the address `a`, if it is one of the array. -/
def write (a : Word) (v : BitVec 8) (o : Owned) : Owned :=
  if (o.index a).toNat < o.nBytes.toNat then
    { o with bytes := Function.update o.bytes (o.index a) (some v) }
  else o

/-- The addresses of the array. -/
def addresses (o : Owned) : Set Word := range o.p o.nBytes

@[simp] theorem write_p (a : Word) (v : BitVec 8) (o : Owned) : (o.write a v).p = o.p := by
  unfold write
  split_ifs <;> rfl

@[simp] theorem write_nBytes (a : Word) (v : BitVec 8) (o : Owned) :
    (o.write a v).nBytes = o.nBytes := by
  unfold write
  split_ifs <;> rfl

/-- In a write to an array, the byte written is the new one and the others are as they were. -/
theorem write_bytes {a : Word} {v : BitVec 8} {o : Owned} {i : Word}
    (hi : i.toNat < o.nBytes.toNat) :
    (o.write a v).bytes i = if o.p + i = a then some v else o.bytes i := by
  have hindex : o.p + i = a ↔ i = o.index a := by
    unfold index
    constructor
    · rintro rfl
      rw [BitVec.add_comm, BitVec.add_sub_cancel]
    · rintro rfl
      rw [BitVec.add_comm, BitVec.sub_add_cancel]
  unfold write
  split_ifs with hin heq heq
  · rw [hindex.1 heq]
    exact Function.update_self _ _ _
  · exact Function.update_of_ne (fun h => heq (hindex.2 h)) _ _
  · exact absurd (hindex.1 heq ▸ hi) hin
  · rfl

end Owned

/-- What becomes of the arrays of a program in a call, by the answer to it. -/
def follow (os : List Owned) : Call → Ret → List Owned
  | .allocate nBytes _ _ _, .pointer p => .allocated p nBytes :: os
  | .allocateClear nBytes _ _ _, .pointer p => .cleared p nBytes :: os
  | .write a v, .written => os.map (Owned.write a v)
  | .deallocate p _, .freed _ => os.filter (·.p ≠ p)
  | _, _ => os

/-! ## The refinement -/

/-- The memory holds what the arrays hold. -/
structure Refines (h : Heap) (os : List Owned) : Prop where
  wf : h.WF
  blocks : os.map (fun o => (o.p, o.nBytes)) = h.live.map fun b => (b.p, b.nBytes)
  bytes : ∀ o ∈ os, ∀ i, i.toNat < o.nBytes.toNat → ∀ v, o.bytes i = some v → h.mem (o.p + i) = v

namespace Refines

variable {h : Heap} {os : List Owned} {o : Owned} {i : Word}

theorem init (m : ByteMem) : Refines (Heap.init m) [] :=
  ⟨Heap.WF.init m, rfl, fun _ ho => absurd ho List.not_mem_nil⟩

/-- Every array is a live block. -/
theorem exists_block (hr : Refines h os) (ho : o ∈ os) :
    ∃ b ∈ h.live, b.p = o.p ∧ b.nBytes = o.nBytes := by
  have hmem : (o.p, o.nBytes) ∈ h.live.map fun b => (b.p, b.nBytes) := by
    rw [← hr.blocks]
    exact List.mem_map_of_mem ho
  obtain ⟨b, hb, heq⟩ := List.mem_map.1 hmem
  exact ⟨b, hb, congrArg Prod.fst heq, congrArg Prod.snd heq⟩

/-- Every byte of an array lies among the client bytes of a live block. -/
theorem exists_client (hr : Refines h os) (ho : o ∈ os) (hi : i.toNat < o.nBytes.toNat) :
    ∃ b ∈ h.live, b.p = o.p ∧ o.p + i ∈ b.client := by
  obtain ⟨b, hb, hp, hn⟩ := hr.exists_block ho
  refine ⟨b, hb, hp, (toNat_sub_lt_iff (hr.wf.sound b hb).client_fits _).1 ?_⟩
  rwa [hp, BitVec.add_comm, BitVec.add_sub_cancel, hn]

/-- The arrays share no byte. -/
theorem pairwise (hr : Refines h os) :
    os.Pairwise fun o o' => Disjoint o.addresses o'.addresses := by
  have hlive : (h.live.map fun b => (b.p, b.nBytes)).Pairwise
      fun x y => Disjoint (range x.1 x.2) (range y.1 y.2) :=
    List.pairwise_map.2 hr.wf.pairwise_client
  rw [← hr.blocks, List.pairwise_map] at hlive
  exact hlive

/-- A memory that is the old one on the client bytes of the blocks holds what the arrays hold. -/
theorem bytes_of_eqOn (hr : Refines h os) {m : ByteMem} (ho : o ∈ os)
    (heq : ∀ b ∈ h.live, b.p = o.p → Set.EqOn m h.mem b.client) (hi : i.toNat < o.nBytes.toNat)
    {v : BitVec 8} (hv : o.bytes i = some v) : m (o.p + i) = v := by
  obtain ⟨b, hb, hp, hmem⟩ := hr.exists_client ho hi
  rw [heq b hb hp hmem]
  exact hr.bytes o ho i hi v hv

/-- A fresh block is a new array, and leaves the others as they are. -/
theorem cons (hr : Refines h os) {b : Block} {m : ByteMem} (hf : h.Fresh b m)
    {bytes : Word → Option (BitVec 8)}
    (hbytes : ∀ i, i.toNat < b.nBytes.toNat → ∀ v, bytes i = some v → m (b.p + i) = v) :
    Refines ⟨m, b.grant :: h.grants, b :: h.live⟩ (⟨b.p, b.nBytes, bytes⟩ :: os) where
  wf := hf.wf hr.wf
  blocks := by rw [List.map_cons, List.map_cons, hr.blocks]
  bytes o ho i hi v hv := by
    rcases List.mem_cons.1 ho with rfl | ho
    · exact hbytes i hi v hv
    · refine hr.bytes_of_eqOn ho (fun c hc _ => ?_) hi hv
      exact (hf.frame _ (hr.wf.grant_mem hc)).mono (hr.wf.sound c hc).client_subset

end Refines

/-! ## Steps -/

section Steps

variable {h : Heap} {os : List Owned}

theorem refines_write (hr : Refines h os) {a : Word} {v : BitVec 8}
    (hok : Admissible h (.write a v)) :
    Refines { h with mem := Function.update h.mem a v } (os.map (Owned.write a v)) where
  wf := wf_step hr.wf hok
  blocks := by
    rw [List.map_map]
    simpa [Function.comp_def] using hr.blocks
  bytes o' ho' i hi w hw := by
    obtain ⟨o, ho, rfl⟩ := List.mem_map.1 ho'
    rw [Owned.write_nBytes] at hi
    rw [Owned.write_bytes hi] at hw
    rw [Owned.write_p]
    by_cases ha : o.p + i = a
    · rw [if_pos ha] at hw
      rw [ha]
      exact (Function.update_self _ _ _).trans (Option.some.inj hw)
    · rw [if_neg ha] at hw
      exact (Function.update_of_ne ha _ _).trans (hr.bytes o ho i hi w hw)

theorem refines_deallocate (hr : Refines h os) {p : Word} {m : ByteMem}
    (hok : Admissible h (.deallocate p m)) :
    Refines (heap.step h (.deallocate p m)).2 (os.filter (·.p ≠ p)) := by
  have hwf := wf_step hr.wf hok
  obtain ⟨⟨b, hb, rfl⟩, hframe⟩ := hok
  rw [step_deallocate hr.wf hb] at hwf ⊢
  refine ⟨hwf, ?_, fun o ho i hi v hv => ?_⟩
  · have hfilter := congrArg (List.filter fun x : Word × Word => x.1 ≠ b.p) hr.blocks
    rwa [List.filter_map, List.filter_map] at hfilter
  · obtain ⟨ho, hne⟩ := List.mem_filter.1 ho
    have hne : o.p ≠ b.p := by simpa using hne
    -- The block of the array keeps its grant, which `free` does not touch.
    refine hr.bytes_of_eqOn ho (fun c hc hp => ?_) hi hv
    have hbase : c.grant.base ≠ deallocate h.mem b.p := by
      rw [(hr.wf.sound b hb).header]
      intro heq
      exact hne (hp.symm.trans (congrArg Block.p (hr.wf.eq_of_base hc hb heq)))
    exact (hframe _ (hr.wf.grant_mem hc) hbase).mono (hr.wf.sound c hc).client_subset

/-- **Every step keeps the refinement.** -/
theorem refines_step {c : Call} (hr : Refines h os) (hok : Admissible h c) :
    Refines (heap.step h c).2 (follow os c (heap.step h c).1) := by
  cases c with
  | allocate nBytes alignSize base m =>
    obtain ⟨p, m', hf, heq⟩ := step_allocate hok
    rw [heq]
    exact hr.cons hf fun i _ v hv => by cases hv
  | allocateClear nBytes alignSize base m =>
    obtain ⟨p, m', hf, hzero, heq⟩ := step_allocateClear hok
    rw [heq]
    refine hr.cons hf fun i hi v hv => ?_
    have hmem : p + i ∈ range p nBytes := by
      refine (toNat_sub_lt_iff hf.sound.client_fits _).1 ?_
      rwa [BitVec.add_comm, BitVec.add_sub_cancel]
    rw [← Option.some.inj hv]
    exact hzero _ hmem
  | write a v => exact refines_write hr hok
  | deallocate p m => exact refines_deallocate hr hok

end Steps

/-! ## Runs -/

/-- **The allocator refines a store of separate arrays.** After every run the live blocks are the
arrays that the program has and has not given back. They share no byte, and what was last put into
a byte of them, by a write or by `allocateClear`, is what the memory holds there, whatever was
allocated, written and given back since and whatever `malloc` and `free` did to the memory that is
not granted. -/
theorem contents_refine (m : ByteMem) (cs : List Call)
    (hcs : heap.Along Admissible (Heap.init m) cs) :
    let h := heap.exec (Heap.init m) cs
    let os := heap.observe follow (Heap.init m) [] cs
    os.map (fun o => (o.p, o.nBytes)) = h.live.map (fun b => (b.p, b.nBytes)) ∧
    os.Pairwise (fun o o' => Disjoint o.addresses o'.addresses) ∧
    ∀ o ∈ os, ∀ i, i.toNat < o.nBytes.toNat → ∀ v, o.bytes i = some v → h.mem (o.p + i) = v := by
  intro h os
  have hr : Refines h os :=
    Machine.exec_observed (R := Refines) (fun _ _ _ => refines_step) cs (Refines.init m) hcs
  exact ⟨hr.blocks, hr.pairwise, hr.bytes⟩

/-- The first block is given back, and `free` writes to it. The second keeps the byte that was
written to it, and the zeros. -/
theorem contents_refine_two :
    let scribbled : ByteMem := Function.update (Function.update twoMem 0x2011 9) 0x1008 0xff
    let cs := twoBlocks ++ [.write 0x2011 9, .deallocate 0x1008 scribbled]
    let h := heap.exec (Heap.init fun _ => 7) cs
    h.live = [⟨0x2010, 16, 16, 0x2000, 32⟩] ∧ h.mem 0x2010 = 0 ∧ h.mem 0x2011 = 9 := by
  intro scribbled cs h
  have hok : heap.Along Admissible (Heap.init fun _ => 7) cs := by
    refine twoBlocks_along _ ⟨⟨_, List.mem_cons_self, by decide, by decide⟩,
      ⟨⟨_, List.mem_cons_of_mem _ List.mem_cons_self, rfl⟩, fun g hg hne x hx => ?_⟩, trivial⟩
    have hg' : g ∈ [(⟨0x2000, 32⟩ : Grant), ⟨0x1000, 24⟩] := hg
    rcases List.mem_pair.1 hg' with rfl | rfl
    · refine Function.update_of_ne ?_ _ _
      rintro rfl
      exact absurd hx.1 (by decide)
    · exact absurd (by decide) hne
  obtain ⟨-, -, hbytes⟩ := contents_refine (fun _ => 7) cs hok
  exact ⟨rfl, hbytes _ List.mem_cons_self 0 (by decide) 0 rfl,
    hbytes _ List.mem_cons_self 1 (by decide) 9 rfl⟩

end AlignedMem

end DBUtl
