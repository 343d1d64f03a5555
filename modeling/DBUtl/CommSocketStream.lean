import DBUtl.CommSocketPair

/-!
# One direction of a connection

One end calls `send` with any messages, the other calls `recv` and `recvFully` with any lengths, in
any order. The sender keeps the messages that `send` has accepted without an exception; the receiver
keeps, of each buffer, as many bytes as the call has returned.

**The stream is whole** when what the receiver has kept, what the call under way has put into its
buffer, and what is in flight are together the messages of the sender. Three events break it, and
nothing else does: `::send` takes a part of a message, `recv` gets a count that is not an `int`, and
`::recv` fails when the call under way has already received something (`stream_whole_iff`).
-/

namespace DBUtl

namespace CommSocket

/-- `recv`. The count is of type `ssize_t`, the result of type `int`. -/
def recv (r : Received) : Outcome :=
  let bytes_recieved := (BitVec.ofInt 32 r.len).toInt
  if bytes_recieved < 0 then .threw ⟨"CommSocket: recv failed", true⟩ else .returned bytes_recieved

/-- The first `n` bytes of a buffer. -/
def contents (n : ℕ) (buf : Buffer) : List Byte := (List.range n).map buf

/-- What the caller takes out of the buffer when a call has ended. -/
def kept (o : Outcome) (buf : Buffer) : List Byte :=
  match o with
  | .returned n => contents n.toNat buf
  | .threw _ => []

/-- The messages accepted, the bytes in flight, the call of `recvFully` under way (its length and
its count), its buffer, and the bytes the receiver has kept. -/
structure Stream where
  messages : List Byte
  wire : List Byte
  call : Option (Size × ℤ)
  buf : Buffer
  got : List Byte

/-- Before the first call. -/
def Stream.init (buf : Buffer) : Stream := ⟨[], [], none, buf, []⟩

/-- Each with what the system call in it returns; `next` is the next `::recv` of `recvFully`. -/
inductive Action
  | send (m : List Byte) (count : ℤ)
  | recv (bufferLen : Size) (buf : Buffer) (r : Received)
  | recvFully (bufferLen : Size) (buf : Buffer)
  | next (r : Received)

def stream : Machine Stream Action Answer where
  step s
    | .send m count =>
      (.sent (send count), { s with
        messages := match send count with
          | .ok _ => s.messages ++ m
          | .error _ => s.messages
        wire := s.wire ++ m.take count.toNat })
    | .recv _ buf r =>
      (.ended (recv r), { s with
        wire := s.wire.drop r.bytes.length
        got := s.got ++ kept (recv r) (storeFrom 0 r.bytes buf) })
    | .recvFully bufferLen buf => (.waiting, { s with call := some (bufferLen, 0), buf := buf })
    | .next r =>
      match s.call with
      | none => (.idle, s)
      | some (bufferLen, rcount) =>
        let buf := storeFrom rcount.toNat r.bytes s.buf
        let wire := s.wire.drop r.bytes.length
        match afterRecv bufferLen rcount r.len with
        | none => (.overflow, s)
        | some (.inl rcount) =>
          (.waiting, { s with wire := wire, call := some (bufferLen, rcount), buf := buf })
        | some (.inr o) =>
          (.ended o, { s with wire := wire, call := none, buf := buf, got := s.got ++ kept o buf })

/-- What the call under way has put into its buffer. -/
def Stream.part (s : Stream) : List Byte :=
  match s.call with
  | none => []
  | some (_, rcount) => contents rcount.toNat s.buf

/-- A result of `::recv` for `room` bytes: -1, or the first bytes in flight. -/
def Delivers (s : Stream) (r : Received) (room : Size) : Prop :=
  r.bytes <+: s.wire ∧ -1 ≤ r.len ∧ r.len ≤ room.toNat

instance (s : Stream) (r : Received) (room : Size) : Decidable (Delivers s r room) :=
  inferInstanceAs (Decidable (_ ∧ _ ∧ _))

/-- What the system may do: `::send` takes the first bytes of the message. The receiver has one call
at a time; a buffer has less than `2 ^ 63` bytes. -/
def Possible (s : Stream) : Action → Prop
  | .send m count => -1 ≤ count ∧ count ≤ m.length
  | .recv bufferLen _ r => s.call = none ∧ Delivers s r bufferLen
  | .recvFully bufferLen _ => s.call = none ∧ bufferLen.toNat < 2 ^ 63
  | .next r => ∃ bufferLen rcount, s.call = some (bufferLen, rcount) ∧
      Delivers s r (asked bufferLen rcount)

/-- Nothing is lost: `::send` takes a message whole or fails, a count is an `int`, and `::recv` does
not fail when `recvFully` has received something. -/
def Lossless (s : Stream) : Action → Prop
  | .send m count => count < 0 ∨ count = m.length
  | .recv _ _ r => r.len < 2 ^ 31
  | .recvFully _ _ => True
  | .next r => r.len < 0 → s.part = []

def Stream.Whole (s : Stream) : Prop := s.got ++ s.part ++ s.wire = s.messages

/-! ## Buffers -/

theorem contents_zero (buf : Buffer) : contents 0 buf = [] := rfl

theorem length_contents (n : ℕ) (buf : Buffer) : (contents n buf).length = n := by
  simp [contents]

/-- Storing behind the first `n` bytes. -/
theorem contents_storeFrom (n : ℕ) {k : ℕ} {bs : List Byte} (hk : k ≤ bs.length) (buf : Buffer) :
    contents (n + k) (storeFrom n bs buf) = contents n buf ++ bs.take k := by
  have hbefore : (List.range n).map (storeFrom n bs buf) = (List.range n).map buf :=
    List.map_congr_left fun j hj => storeFrom_of_notMem (.inl (List.mem_range.mp hj)) buf
  have hbehind : (List.range k).map (storeFrom n bs buf ∘ (n + ·)) = bs.take k := by
    refine List.ext_getElem (by simp [hk]) fun j hj _ => ?_
    have hlt : j < bs.length := by
      rw [List.length_map, List.length_range] at hj
      omega
    simpa using storeFrom_of_lt n hlt buf
  rw [contents, List.range_add, List.map_append, hbefore, List.map_map, hbehind, contents]

theorem contents_stored (n : ℕ) (r : Received) (buf : Buffer) :
    contents (n + r.len.toNat) (storeFrom n r.bytes buf) = contents n buf ++ r.bytes := by
  rw [contents_storeFrom n r.length_bytes.ge, ← r.length_bytes, List.take_length]

/-! ## Steps -/

/-- The count of the call under way, and its length. -/
structure Counted (s : Stream) : Prop where
  room : ∀ bufferLen rcount, s.call = some (bufferLen, rcount) →
    ∃ c : ℕ, rcount = c ∧ c ≤ bufferLen.toNat ∧ bufferLen.toNat < 2 ^ 63

section Steps

variable {s : Stream} {r : Received} {bufferLen room : Size} {buf : Buffer}

theorem Delivers.split (h : Delivers s r room) : ∃ rest, s.wire = r.bytes ++ rest := by
  obtain ⟨⟨rest, hrest⟩, -⟩ := h
  exact ⟨rest, hrest.symm⟩

theorem Received.bytes_eq_nil (h : r.len < 0) : r.bytes = [] := by
  rw [← List.length_eq_zero_iff, r.length_bytes]
  omega

/-- A message is sent, whole or not. -/
theorem whole_send {m : List Byte} {count : ℤ} (h : s.Whole) (hle : count ≤ m.length) :
    (stream.step s (.send m count)).2.Whole ↔ count < 0 ∨ count = m.length := by
  by_cases hneg : count < 0
  · have hwhole : (stream.step s (.send m count)).2.Whole := by
      simpa [stream, send, hneg, Stream.Whole, Stream.part, Int.toNat_of_nonpos hneg.le] using h
    simp [hwhole, hneg]
  · have htake : m.take count.toNat = m ↔ count = m.length := by
      rw [List.take_eq_self_iff]
      omega
    have hwhole : (stream.step s (.send m count)).2.Whole ↔ m.take count.toNat = m := by
      simp only [stream, send, hneg, Stream.Whole, Stream.part, if_false] at h ⊢
      rw [← List.append_assoc, h, List.append_cancel_left_eq]
    rw [hwhole, htake]
    omega

/-- The result of `recv` is the count, when that is an `int`. -/
theorem kept_recv_iff (hlen : -1 ≤ r.len) (buf : Buffer) :
    kept (recv r) (storeFrom 0 r.bytes buf) = r.bytes ↔ r.len < 2 ^ 31 := by
  have hmod := BitVec.toInt_ofInt (n := 32) (i := r.len)
  by_cases hlt : r.len < 2 ^ 31
  · have hint : (BitVec.ofInt 32 r.len).toInt = r.len := by
      rw [hmod]
      exact Int.bmod_eq_of_le (by omega) (by omega)
    have hkept : kept (recv r) (storeFrom 0 r.bytes buf) = r.bytes := by
      by_cases hneg : r.len < 0
      · simp [recv, hint, hneg, kept, Received.bytes_eq_nil hneg]
      · have hstored := contents_stored 0 r buf
        rw [Nat.zero_add, contents_zero, List.nil_append] at hstored
        simpa [recv, hint, hneg, kept] using hstored
    exact iff_of_true hkept hlt
  · -- An `int` counts fewer bytes than were received.
    have hshort : (kept (recv r) (storeFrom 0 r.bytes buf)).length < r.bytes.length := by
      have hmax : (BitVec.ofInt 32 r.len).toInt < 2 ^ 31 := BitVec.toInt_lt
      rw [r.length_bytes]
      by_cases hneg : (BitVec.ofInt 32 r.len).toInt < 0
      · simp only [recv, hneg, if_true, kept, List.length_nil]
        omega
      · simp only [recv, hneg, if_false, kept, length_contents]
        omega
    exact iff_of_false (fun heq => by rw [heq] at hshort; exact hshort.false) hlt

theorem whole_recv (h : s.Whole) (hcall : s.call = none) (hdelivers : Delivers s r bufferLen) :
    (stream.step s (.recv bufferLen buf r)).2.Whole ↔ r.len < 2 ^ 31 := by
  obtain ⟨rest, hrest⟩ := hdelivers.split
  rw [← kept_recv_iff hdelivers.2.1 buf]
  simp only [stream, Stream.Whole, Stream.part, hcall, hrest, List.append_nil, List.drop_left]
    at h ⊢
  rw [← h, List.append_assoc, List.append_cancel_left_eq, List.append_cancel_right_eq]

/-- What the next `::recv` of `recvFully` leads to: it fails, it leaves the call under way, or the
call returns. -/
theorem next_cases (h : Counted s) (hok : Possible s (.next r)) :
    ∃ c rest, s.part = contents c s.buf ∧ s.wire = r.bytes ++ rest ∧
      ((r.len < 0 ∧ (stream.step s (.next r)).2 = { s with wire := rest, call := none }) ∨
      (0 ≤ r.len ∧ ∃ bufferLen : Size, c + r.len.toNat ≤ bufferLen.toNat ∧
        bufferLen.toNat < 2 ^ 63 ∧ (stream.step s (.next r)).2 =
          { s with wire := rest, call := some (bufferLen, ((c + r.len.toNat : ℕ) : ℤ)),
                   buf := storeFrom c r.bytes s.buf }) ∨
      (0 ≤ r.len ∧ (stream.step s (.next r)).2 =
        { s with wire := rest, call := none, buf := storeFrom c r.bytes s.buf,
                 got := s.got ++ contents (c + r.len.toNat) (storeFrom c r.bytes s.buf) })) := by
  obtain ⟨bufferLen, rcount, hcall, hdelivers⟩ := hok
  obtain ⟨c, rfl, hc, hsize⟩ := h.room _ _ hcall
  obtain ⟨rest, hrest⟩ := hdelivers.split
  refine ⟨c, rest, by simp [Stream.part, hcall], hrest, ?_⟩
  rcases afterRecv_cases hsize hc hdelivers.2.2 with
    ⟨hneg, hstep⟩ | ⟨hpos, hmore, hstep⟩ | ⟨h0, -, hstep⟩
  · have hnil := Received.bytes_eq_nil hneg
    rw [hnil, List.nil_append] at hrest
    exact .inl ⟨hneg, by simp [stream, hcall, hstep, hnil, hrest, kept, storeFrom]⟩
  · refine .inr (.inl ⟨hpos.le, bufferLen, hmore.le, hsize, ?_⟩)
    simp [stream, hcall, hstep, hrest]
  · refine .inr (.inr ⟨h0, ?_⟩)
    simp only [stream, hcall, hstep, hrest, kept, Int.toNat_natCast, List.drop_left]

theorem whole_next (h : s.Whole) (hcounted : Counted s) (hok : Possible s (.next r)) :
    (stream.step s (.next r)).2.Whole ↔ (r.len < 0 → s.part = []) := by
  obtain ⟨c, rest, hpart, hrest, hcases⟩ := next_cases hcounted hok
  have hstored := contents_stored c r s.buf
  rw [Stream.Whole, hrest] at h
  rcases hcases with ⟨hneg, hstep⟩ | ⟨h0, bufferLen, -, -, hstep⟩ | ⟨h0, hstep⟩
  · rw [Received.bytes_eq_nil hneg, List.nil_append] at h
    simp only [hstep, Stream.Whole, ← h, hneg, true_imp_iff]
    change s.got ++ [] ++ rest = s.got ++ s.part ++ rest ↔ s.part = []
    rw [List.append_cancel_right_eq, List.append_cancel_left_eq, eq_comm]
  · refine iff_of_true ?_ fun hneg => absurd h0 hneg.not_ge
    rw [hpart] at h
    simp only [hstep, Stream.Whole, Stream.part, Int.toNat_natCast, hstored, ← h, List.append_assoc]
  · refine iff_of_true ?_ fun hneg => absurd h0 hneg.not_ge
    rw [hpart] at h
    simp only [hstep, Stream.Whole, Stream.part, hstored, ← h, List.append_assoc, List.nil_append]

theorem counted_step (h : Counted s) (a : Action) (hok : Possible s a) :
    Counted (stream.step s a).2 := by
  cases a with
  | send m count => exact ⟨h.room⟩
  | recv bufferLen buf r => exact ⟨h.room⟩
  | recvFully bufferLen buf =>
    refine ⟨fun bufferLen' rcount heq => ?_⟩
    obtain ⟨rfl, rfl⟩ := Prod.mk.inj (Option.some.inj heq)
    exact ⟨0, rfl, Nat.zero_le _, hok.2⟩
  | next r =>
    obtain ⟨c, rest, -, -, hcases⟩ := next_cases h hok
    rcases hcases with ⟨-, hstep⟩ | ⟨-, bufferLen, hc, hsize, hstep⟩ | ⟨-, hstep⟩
    · rw [hstep]
      exact ⟨fun _ _ hc => nomatch hc⟩
    · rw [hstep]
      refine ⟨fun bufferLen' rcount heq => ?_⟩
      obtain ⟨rfl, rfl⟩ := Prod.mk.inj (Option.some.inj heq)
      exact ⟨_, rfl, hc, hsize⟩
    · rw [hstep]
      exact ⟨fun _ _ hc => nomatch hc⟩

/-- **One event**: the stream stays whole exactly when nothing is lost. -/
theorem whole_step (h : s.Whole) (hcounted : Counted s) (a : Action) (hok : Possible s a) :
    (stream.step s a).2.Whole ↔ Lossless s a := by
  cases a with
  | send m count => exact whole_send h hok.2
  | recv bufferLen buf r => exact whole_recv h hok.1 hok.2
  | recvFully bufferLen buf =>
    refine iff_of_true ?_ trivial
    simpa [stream, Stream.Whole, Stream.part, hok.1, contents_zero] using h
  | next r => exact whole_next h hcounted hok

end Steps

/-- **When the stream is whole.** It is whole all the way, in any run of the two ends, exactly when
no event of the run loses something. -/
theorem stream_whole_iff (buf : Buffer) (actions : List Action)
    (hok : stream.Along Possible (.init buf) actions) :
    (∀ pre, pre <+: actions → (stream.exec (.init buf) pre).Whole) ↔
      stream.Along Lossless (.init buf) actions := by
  refine Machine.along_iff (I := Counted) (fun s a hI ha => counted_step hI a ha)
    (fun s a hI hP ha => whole_step hP hI a ha) actions ⟨fun _ _ hc => nomatch hc⟩ rfl hok

/-- Three bytes by `recv` and a `recvFully` of two pieces; and a `recvFully` that fails at the
second. -/
theorem stream_whole_iff_pieces :
    let buf : Buffer := fun _ => 0#8
    let calls := fun r : Received =>
      [.send [1, 2, 3] 3, .recv 1 buf (.of [1]), .recvFully 2 buf, .next (.of [2]), .next r]
    (stream.exec (.init buf) (calls (.of [3]))).Whole ∧
      ∃ pre, pre <+: calls ⟨-1, [], rfl⟩ ∧ ¬ (stream.exec (.init buf) pre).Whole := by
  intro buf calls
  have hwhole := (stream_whole_iff buf (calls (.of [3]))
    ⟨⟨by decide, by decide⟩, ⟨rfl, by decide⟩, ⟨rfl, by decide⟩, ⟨2, 0, rfl, by decide⟩,
      ⟨2, 1, rfl, by decide⟩, trivial⟩).mpr
    ⟨.inr rfl, show (1 : ℤ) < 2 ^ 31 by decide, trivial, fun h => absurd h (by decide),
      fun h => absurd h (by decide), trivial⟩
  have hlost := (stream_whole_iff buf (calls ⟨-1, [], rfl⟩)
    ⟨⟨by decide, by decide⟩, ⟨rfl, by decide⟩, ⟨rfl, by decide⟩, ⟨2, 0, rfl, by decide⟩,
      ⟨2, 1, rfl, by decide⟩, trivial⟩).not.mpr
    fun h => absurd (h.2.2.2.2.1 (by decide)) (by decide)
  push Not at hlost
  exact ⟨hwhole _ List.prefix_rfl, hlost⟩

end CommSocket

end DBUtl
