import DBUtl.AlignedMem
import DBUtl.Lib.Machine
import Mathlib.Data.List.FinRange
import Mathlib.Data.Int.Notation
import Mathlib.Logic.Function.Basic

/-!
# Aligned blocks in huge pages

The build of `AlignedMem.cpp` under `USE_HUGEPAGE`. A block is a shared memory segment of its own,
made of pages of two megabytes, and a table of segments is kept in static members. What `shmget`
and `shmat` answer is an argument. Calls to the system and messages are listed as effects.

An `int` is a 32-bit word, and its sums and products wrap.
-/

namespace DBUtl

namespace HugePage

open AlignedMem (Word DEFAULT_ALIGN)

def MAX_SEGMENTS : ℕ := 20

def MAX_PAGES : Int32 := 600

def MB_1 : Int32 := 1024 * 1024

def PAGESIZE : Int32 := 2 * MB_1

/-- The conversion of an `int` to `size_t`. -/
def toSize (x : Int32) : Word := x.toBitVec.signExtend 64

/-- The conversion of a `size_t` to `int`. -/
def toInt (x : Word) : Int32 := Int32.ofBitVec (x.setWidth 32)

/-! ## The table of segments -/

/-- The static members. A cleared entry has the address 0. -/
structure Statics where
  shmId : Fin MAX_SEGMENTS → Int32
  shmSize : Fin MAX_SEGMENTS → Int32
  shmAddr : Fin MAX_SEGMENTS → Word
  numSegments : ℕ
  totalPages : Int32
  numSegments_le : numSegments ≤ MAX_SEGMENTS

namespace Statics

/-- Static members start as zeros. -/
def init : Statics :=
  ⟨fun _ => 0, fun _ => 0, fun _ => 0, 0, 0, Nat.zero_le _⟩

/-- Write the next entry of the table. -/
def record (st : Statics) (h : st.numSegments < MAX_SEGMENTS) (shmid pages : Int32) (p : Word) :
    Statics where
  shmId := Function.update st.shmId ⟨st.numSegments, h⟩ shmid
  shmSize := Function.update st.shmSize ⟨st.numSegments, h⟩ pages
  shmAddr := Function.update st.shmAddr ⟨st.numSegments, h⟩ p
  numSegments := st.numSegments + 1
  totalPages := st.totalPages + pages
  numSegments_le := h

/-- The entries in use, in order. -/
def entries (st : Statics) : List (Fin MAX_SEGMENTS) :=
  (List.finRange MAX_SEGMENTS).filter fun i => i < st.numSegments

end Statics

/-- What a call does to the rest of the world. -/
inductive Effect
  | printf (s : String)
  | perror (s : String)
  | shmget (key : ℕ) (size : Word)
  | shmat (shmid : Int32)
  | rmid (shmid : Int32)
  deriving DecidableEq

/-- How a call ends: it returns, with an address or without, or it throws, or the program exits. -/
inductive Outcome
  | returned (p : Word)
  | done
  | threw (what : String)
  | exited (code : ℕ)
  deriving DecidableEq

/-- What the system answers during a call. -/
structure System where
  shmget : ℕ → Word → Int32
  shmat : Int32 → Word

/-! ## Allocation -/

def pagesFor (nBytes : Word) : Int32 := toInt (1 + (nBytes - 1) / toSize PAGESIZE)

/-- The part of `allocate` after the checks. -/
def attach (sys : System) (st : Statics) (pages : Int32) (h : st.numSegments < MAX_SEGMENTS) :
    List Effect × Outcome × Statics :=
  let size := toSize (pages * PAGESIZE)
  let shmid := sys.shmget st.numSegments size
  if shmid < 0 then
    ([.shmget st.numSegments size, .perror "shmget"], .exited 1, st)
  else
    let p := sys.shmat shmid
    if p = -1 then
      ([.shmget st.numSegments size, .shmat shmid, .perror "Shared memory attach failure",
        .rmid shmid], .exited 2, st)
    else
      ([.shmget st.numSegments size, .shmat shmid], .returned p, st.record h shmid pages p)

def allocate (sys : System) (st : Statics) (nBytes : Word) (alignSize : Word := DEFAULT_ALIGN) :
    List Effect × Outcome × Statics :=
  if alignSize &&& (alignSize - 1) ≠ 0 then
    ([], .threw "AllignedMem::allocate alignment not a power of 2", st)
  else if toSize PAGESIZE < alignSize then
    ([.printf "alignment cannot be satisfied."], .exited 1, st)
  else
    let pages := pagesFor nBytes
    if h : st.numSegments < MAX_SEGMENTS then
      let (effects, outcome, st') := attach sys st pages h
      -- the second limit is reported, and the call goes on
      if MAX_PAGES < pages + st.totalPages then
        (.perror "Too many pages allocated." :: effects, outcome, st')
      else (effects, outcome, st')
    else ([.printf "Too many segments allocated."], .exited 1, st)

/-! ## Deallocation -/

/-- One round of the loop of `deallocate`. -/
def deallocateAt (st : Statics) (i : Fin MAX_SEGMENTS) : List Effect × Statics :=
  let p := st.shmAddr i
  if p ≠ 0 then
    ([.rmid (st.shmId i)], { st with shmAddr := Function.update st.shmAddr i 0 })
  else ([], st)

def deallocateLoop (st : Statics) : List (Fin MAX_SEGMENTS) → List Effect × Statics
  | [] => ([], st)
  | i :: is =>
    let (effects, st') := deallocateAt st i
    let (effects', st'') := deallocateLoop st' is
    (effects ++ effects', st'')

/-- The test of the loop assigns to `p`, so that nothing reads the argument. -/
def deallocate (st : Statics) (_p : Word) : List Effect × Statics :=
  deallocateLoop st st.entries

/-! ## Programs that allocate -/

inductive Call
  | allocate (sys : System) (nBytes alignSize : Word)
  | deallocate (p : Word)

def machine : Machine Statics Call (List Effect × Outcome) where
  step st
    | .allocate sys nBytes alignSize =>
      let (effects, outcome, st') := allocate sys st nBytes alignSize
      ((effects, outcome), st')
    | .deallocate p =>
      let (effects, st') := deallocate st p
      ((effects, .done), st')

/-- The call returns to its caller. -/
def Outcome.Returns : Outcome → Prop
  | .returned _ | .done => True
  | .threw _ | .exited _ => False

/-- A segment as its owner knows it, and where the table has it. -/
structure Segment where
  addr : Word
  index : Fin MAX_SEGMENTS

/-- A program knows the segments it has been given and has not given back. -/
structure Program where
  st : Statics
  live : List Segment

namespace Program

def init : Program := ⟨Statics.init, []⟩

/-- The live segments after a call. -/
def next (w : Program) : Call → Outcome → List Segment
  | .allocate _ _ _, .returned p =>
    if h : w.st.numSegments < MAX_SEGMENTS then ⟨p, ⟨w.st.numSegments, h⟩⟩ :: w.live else w.live
  | .deallocate p, _ => w.live.eraseP (·.addr = p)
  | _, _ => w.live

end Program

def program : Machine Program Call (List Effect × Outcome) where
  step w c :=
    let (ret, st') := machine.step w.st c
    (ret, ⟨st', w.next c ret.2⟩)

end HugePage

end DBUtl
