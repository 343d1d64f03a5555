import DBUtl.Lib.Region

/-!
# Aligned blocks

The default build of `AlignedMem.cpp`. A block is cut out of a larger one from `malloc`, at the
first aligned address above its start; the start is stored in the word before the block, where
`deallocate` finds it. Sizes and addresses are 64-bit words. `malloc` is a function from the size
of a request to the address it returns.
-/

namespace DBUtl

namespace AlignedMem

/-- `size_t`, and addresses. -/
abbrev Word := BitVec 64

def DEFAULT_ALIGN : Word := 8

/-- The word before a block, which holds the address `free` is given. -/
def header (p : Word) : Word := p - 8

def allocate (malloc : Word → Word) (m : ByteMem) (nBytes : Word)
    (alignSize : Word := DEFAULT_ALIGN) : Except String (Word × ByteMem) :=
  if alignSize &&& (alignSize - 1) ≠ 0 then
    .error "AllignedMem::allocate alignment not a power of 2"
  else
    let base := malloc (nBytes + alignSize)
    let off := base &&& (alignSize - 1)
    let p := base - off + alignSize
    .ok (p, m.store64 (header p) base)

def allocateClear (malloc : Word → Word) (m : ByteMem) (nBytes : Word)
    (alignSize : Word := DEFAULT_ALIGN) : Except String (Word × ByteMem) :=
  match allocate malloc m nBytes alignSize with
  | .error e => .error e
  | .ok (p, m') => .ok (p, m'.fill p 0 nBytes)

/-- The address `deallocate` gives to `free`. -/
def deallocate (m : ByteMem) (p : Word) : Word := m.load64 (header p)

end AlignedMem

end DBUtl
