import DBUtl.Lib.Checked
import DBUtl.Lib.Machine
import DBUtl.Lib.Store

/-!
# Sending and receiving

`CommSocket::send` and `CommSocket::recvFully`, over the system calls `::send` and `::recv`. The
system decides how many bytes it takes or delivers, so its results are given: a count for `::send`,
and for `::recv` a count with the bytes it has put into the buffer.

Sums of `int64_t` are `checked`; a run that overflows has no outcome. The comparison of such a sum
with `bufferLen` is between `uint64_t`.
-/

namespace DBUtl

namespace CommSocket

abbrev Byte := BitVec 8

/-- `uint64_t` and `size_t`. -/
abbrev Size := BitVec 64

/-- A buffer, by the offset from its start. -/
abbrev Buffer := ℕ → Byte

/-- The user message; the text of `errno` is added when `sysMsg` is set. -/
structure SocketException where
  message : String
  sysMsg : Bool := false
  deriving DecidableEq

/-- A result of `::recv`: the count, and the bytes it has written. -/
structure Received where
  len : ℤ
  bytes : List Byte
  length_bytes : bytes.length = len.toNat

/-- What `::recv` has taken from a stream. -/
def Received.of (bs : List Byte) : Received := ⟨bs.length, bs, rfl⟩

/-- `count` is what `::send` returns. -/
def send (count : ℤ) : Except SocketException Unit :=
  if count < 0 then .error ⟨"CommSocket: send failed", true⟩ else .ok ()

/-! ## Receiving -/

inductive Outcome
  | returned (n : ℤ)
  | threw (e : SocketException)
  deriving DecidableEq

/-- The loop condition, `len > 0 && rcount + len < bufferLen`. -/
def more (bufferLen : Size) (rcount len : ℤ) : Option Bool :=
  if 0 < len then
    (checked 63 (rcount + len)).map fun sum => decide (BitVec.ofInt 64 sum < bufferLen)
  else some false

/-- From a result `len` of `::recv` to the next, or to the end: the new `rcount`, or how the call
ends. -/
def afterRecv (bufferLen : Size) (rcount len : ℤ) : Option (ℤ ⊕ Outcome) :=
  match more bufferLen rcount len with
  | none => none
  | some true => (checked 63 (rcount + len)).map .inl
  | some false =>
    if len < 0 then some (.inr (.threw ⟨"Receive failed (recv())", false⟩))
    else (checked 63 (rcount + len)).map fun n => .inr (.returned n)

/-- The length that `::recv` is asked for. -/
def asked (bufferLen : Size) (rcount : ℤ) : Size := bufferLen - BitVec.ofInt 64 rcount

/-- A run of `recvFully`: how it ended, unless a sum overflowed, what it has left in the buffer, and
the offsets and lengths it has asked `::recv` for. -/
structure Run where
  outcome : Option Outcome
  buf : Buffer
  calls : List (ℕ × Size)

/-- The loop goes on only to a larger count, below the length of the buffer. -/
theorem afterRecv_eq_inl {bufferLen : Size} {rcount len sum : ℤ}
    (h : afterRecv bufferLen rcount len = some (.inl sum)) :
    0 < len ∧ sum = rcount + len ∧ Fits 63 sum ∧ BitVec.ofInt 64 sum < bufferLen := by
  unfold afterRecv more at h
  by_cases hlen : 0 < len
  · have hneg : ¬ len < 0 := hlen.not_gt
    by_cases hfits : Fits 63 (rcount + len)
    · by_cases hlt : BitVec.ofInt 64 (rcount + len) < bufferLen
      · simp [hlen, checked_of_fits hfits, hlt] at h
        exact ⟨hlen, h.symm, h ▸ hfits, h ▸ hlt⟩
      · simp [hlen, checked_of_fits hfits, hlt, hneg] at h
    · simp [hlen, checked_of_not_fits hfits] at h
  · by_cases hneg : len < 0
    · simp [hlen, hneg] at h
    · simp [hlen, hneg] at h

/-- What is left of the buffer gets less. -/
theorem afterRecv_decreases {bufferLen : Size} {rcount len sum : ℤ}
    (h : afterRecv bufferLen rcount len = some (.inl sum)) :
    (bufferLen.toNat - sum).toNat < (bufferLen.toNat - rcount).toNat := by
  obtain ⟨hlen, hsum, hfits, hlt⟩ := afterRecv_eq_inl h
  have hnat : (BitVec.ofInt 64 sum).toNat < bufferLen.toNat := hlt
  rw [BitVec.toNat_ofInt] at hnat
  unfold Fits at hfits
  omega

/-- The loop of `recvFully`, from result `i` on. -/
def recvFrom (results : ℕ → Received) (bufferLen : Size) (i : ℕ) (rcount : ℤ) (buf : Buffer) :
    Run :=
  let r := results i
  let buf := storeFrom rcount.toNat r.bytes buf
  let call := (rcount.toNat, asked bufferLen rcount)
  match h : afterRecv bufferLen rcount r.len with
  | none => ⟨none, buf, [call]⟩
  | some (.inr o) => ⟨some o, buf, [call]⟩
  | some (.inl rcount) =>
    let run := recvFrom results bufferLen (i + 1) rcount buf
    ⟨run.outcome, run.buf, call :: run.calls⟩
termination_by (bufferLen.toNat - rcount).toNat
decreasing_by exact afterRecv_decreases h

def recvFully (results : ℕ → Received) (bufferLen : Size) (buf : Buffer) : Run :=
  recvFrom results bufferLen 0 0 buf

end CommSocket

end DBUtl
