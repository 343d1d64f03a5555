import DBUtl.CommSocketProof
import Mathlib.Data.List.Forall2

/-!
# A connected pair

One peer hands its messages to `send`, one call each; the other calls `recvFully` once for every
message, with its length. Between them is a stream of bytes in order. The system decides, in any
interleaving of the two peers, how many bytes `::send` takes and how many `::recv` delivers.

Nothing marks the messages in the stream, so both peers have to account for every byte. `recvFully`
does: as long as `::send` has taken all messages whole, the bytes in flight are the messages in
flight, the first of them less what the call under way has received (`Inv.stream`). `send` drops the
count that `::send` returns. Where it is short, the rest of the message is never sent, and the next
message is received in its place.
-/

namespace DBUtl

namespace CommSocket

/-- The state of the two peers and of the stream. The first length of `toRecv` is that of the call
of `recvFully` under way, which has counted `rcount` bytes; `done` has how the calls before it have
ended, and their buffers. -/
structure Pair where
  toSend : List (List Byte)
  closed : Bool
  wire : List Byte
  toRecv : List Size
  rcount : ℤ
  buf : Buffer
  done : List (Outcome × Buffer)

/-- The calls of the system, with their results. -/
inductive Event
  | send (count : ℤ)
  | close
  | recv (r : Received)

/-- What a peer learns from an event. -/
inductive Answer
  | sent (r : Except SocketException Unit)
  | closed
  | waiting
  | ended (o : Outcome)
  | overflow
  | idle

/-- The buffer of call `i` is `bufs i` at first. -/
def Pair.init (bufs : ℕ → Buffer) (ms : List (List Byte)) : Pair where
  toSend := ms
  closed := false
  wire := []
  toRecv := ms.map fun m => BitVec.ofNat 64 m.length
  rcount := 0
  buf := bufs 0
  done := []

def pair (bufs : ℕ → Buffer) : Machine Pair Event Answer where
  step s
    | .send count =>
      match s.toSend with
      | [] => (.idle, s)
      | m :: ms =>
        (.sent (send count), { s with toSend := ms, wire := s.wire ++ m.take count.toNat })
    | .close => (.closed, { s with closed := true })
    | .recv r =>
      match s.toRecv with
      | [] => (.idle, s)
      | bufferLen :: lens =>
        let buf := storeFrom s.rcount.toNat r.bytes s.buf
        let wire := s.wire.drop r.bytes.length
        match afterRecv bufferLen s.rcount r.len with
        | none => (.overflow, s)
        | some (.inl rcount) => (.waiting, { s with wire := wire, rcount := rcount, buf := buf })
        | some (.inr o) =>
          (.ended o, { s with
            wire := wire, toRecv := lens, rcount := 0, buf := bufs (s.done.length + 1),
            done := s.done ++ [(o, buf)] })

section Steps

variable {bufs : ℕ → Buffer} {s : Pair} {r : Received} {bufferLen : Size} {lens : List Size}

theorem step_waiting {sum : ℤ} (hlens : s.toRecv = bufferLen :: lens)
    (h : afterRecv bufferLen s.rcount r.len = some (.inl sum)) :
    (pair bufs).step s (.recv r) = (.waiting, { s with
      wire := s.wire.drop r.bytes.length, rcount := sum,
      buf := storeFrom s.rcount.toNat r.bytes s.buf }) := by
  simp only [pair, hlens, h]

theorem step_ended {o : Outcome} (hlens : s.toRecv = bufferLen :: lens)
    (h : afterRecv bufferLen s.rcount r.len = some (.inr o)) :
    (pair bufs).step s (.recv r) = (.ended o, { s with
      wire := s.wire.drop r.bytes.length, toRecv := lens, rcount := 0,
      buf := bufs (s.done.length + 1),
      done := s.done ++ [(o, storeFrom s.rcount.toNat r.bytes s.buf)] }) := by
  simp only [pair, hlens, h]

end Steps

/-- What the system and the sender may do: `::send` takes at least a byte and at most the message,
`::recv` delivers what comes next in the stream, at least a byte and at most what is asked for, or
nothing once the sender has closed and the stream is empty. The sender closes after its last
message. Counts are of type `ssize_t`. -/
def Admissible (s : Pair) : Event → Prop
  | .send count => s.closed = false ∧
      ∃ m ms, s.toSend = m :: ms ∧ 1 ≤ count ∧ count ≤ m.length ∧ Fits 63 count
  | .close => s.toSend = []
  | .recv r => r.bytes <+: s.wire ∧ Fits 63 r.len ∧
      ∃ bufferLen lens, s.toRecv = bufferLen :: lens ∧
        (1 ≤ r.len ∧ r.len ≤ (asked bufferLen s.rcount).toNat ∨
          r.len = 0 ∧ s.closed = true ∧ s.wire = [])

/-- `::send` takes the whole message. -/
def Whole (s : Pair) : Event → Prop
  | .send count => ∀ m ∈ s.toSend.head?, count = m.length
  | .close | .recv _ => True

/-- A call of `recvFully` has returned the length of `m`, with `m` in the buffer. -/
def Delivered (m : List Byte) (end_ : Outcome × Buffer) : Prop :=
  end_.1 = .returned m.length ∧ ∀ j (hj : j < m.length), end_.2 j = m[j]

/-! ## The invariant -/

/-- Of the messages `ms`, the receiver has `got` the first ones, others are in `flight`, and of the
first of these `part` is in the buffer. -/
structure Inv (ms : List (List Byte)) (s : Pair) (got flight : List (List Byte))
    (part : List Byte) : Prop where
  split : ms = got ++ (flight ++ s.toSend)
  done : List.Forall₂ Delivered got s.done
  toRecv : s.toRecv = (flight ++ s.toSend).map fun m => BitVec.ofNat 64 m.length
  stream : flight.flatten = part ++ s.wire
  room : ∀ m ∈ flight.head?, part.length < m.length
  size : ∀ m ∈ flight, m.length < 2 ^ 63
  rcount : s.rcount = part.length
  buf : ∃ buf₀, s.buf = storeFrom 0 part buf₀
  closed : s.closed = true → s.toSend = []

namespace Inv

variable {bufs : ℕ → Buffer} {ms : List (List Byte)} {s : Pair} {got flight : List (List Byte)}
  {part : List Byte}

theorem init (bufs : ℕ → Buffer) (ms : List (List Byte)) : Inv ms (Pair.init bufs ms) [] [] [] where
  split := rfl
  done := .nil
  toRecv := rfl
  stream := rfl
  room m hm := by cases hm
  size m hm := by cases hm
  rcount := rfl
  buf := ⟨bufs 0, rfl⟩
  closed h := by cases h

/-- With nothing on the wire, nothing is in flight. -/
theorem flight_eq_nil (h : Inv ms s got flight part) (hwire : s.wire = []) :
    flight = [] ∧ part = [] := by
  have hstream := h.stream
  rw [hwire, List.append_nil] at hstream
  cases flight with
  | nil => exact ⟨rfl, hstream.symm⟩
  | cons m rest =>
    have hroom := h.room m rfl
    rw [← hstream, List.flatten_cons, List.length_append] at hroom
    omega

theorem send (h : Inv ms s got flight part) {m : List Byte} {rest : List (List Byte)}
    (hm : s.toSend = m :: rest) (hne : m ≠ []) (hsize : m.length < 2 ^ 63)
    (hopen : s.closed = false) :
    Inv ms { s with toSend := rest, wire := s.wire ++ m } got (flight ++ [m]) part where
  split := by simp [h.split, hm]
  done := h.done
  toRecv := by simp [h.toRecv, hm]
  stream := by simp [h.stream]
  room m' hm' := by
    cases flight with
    | nil =>
      have hpart : part = [] := (List.append_eq_nil_iff.1 h.stream.symm).1
      simp only [List.nil_append, List.head?_cons, Option.mem_some_iff] at hm'
      subst hm'
      rw [hpart]
      exact List.length_pos_of_ne_nil hne
    | cons m₀ rest' => exact h.room m' hm'
  size m' hm' := by
    rcases List.mem_append.1 hm' with hm' | hm'
    · exact h.size m' hm'
    · rwa [List.mem_singleton.1 hm']
  rcount := h.rcount
  buf := h.buf
  closed hc := by simp [hopen] at hc

theorem close (h : Inv ms s got flight part) (hnil : s.toSend = []) :
    Inv ms { s with closed := true } got flight part where
  split := h.split
  done := h.done
  toRecv := h.toRecv
  stream := h.stream
  room := h.room
  size := h.size
  rcount := h.rcount
  buf := h.buf
  closed _ := hnil

/-- The buffer, when the bytes that come next are written behind those that are there. -/
theorem buf_append (h : Inv ms s got flight part) (bs : List Byte) :
    ∃ buf₀, storeFrom s.rcount.toNat bs s.buf = storeFrom 0 (part ++ bs) buf₀ := by
  obtain ⟨buf₀, hbuf⟩ := h.buf
  refine ⟨buf₀, ?_⟩
  rw [storeFrom_append, ← hbuf, h.rcount, Nat.zero_add, Int.toNat_natCast]

section Recv

variable {m : List Byte} {rest : List (List Byte)} {bs wire : List Byte}

/-- The call under way goes on. -/
theorem waiting (h : Inv ms s got (m :: rest) part) (hwire : s.wire = bs ++ wire)
    (hroom : (part ++ bs).length < m.length) :
    Inv ms { s with wire := wire, rcount := ((part ++ bs).length : ℤ),
                    buf := storeFrom s.rcount.toNat bs s.buf } got (m :: rest) (part ++ bs) where
  split := h.split
  done := h.done
  toRecv := h.toRecv
  stream := by rw [h.stream, hwire, List.append_assoc]
  room m' hm' := by
    cases hm'
    exact hroom
  size := h.size
  rcount := rfl
  buf := h.buf_append bs
  closed := h.closed

/-- The call under way returns: it has received its message. -/
theorem ended (h : Inv ms s got (m :: rest) part) (hne : ∀ m ∈ ms, m ≠ [])
    (hwire : s.wire = bs ++ wire) (hfull : (part ++ bs).length = m.length) (buf : Buffer) :
    Inv ms
      { s with
        wire := wire, toRecv := (rest ++ s.toSend).map fun m => BitVec.ofNat 64 m.length,
        rcount := 0, buf := buf,
        done := s.done ++ [(.returned m.length, storeFrom s.rcount.toNat bs s.buf)] }
      (got ++ [m]) rest [] := by
  -- The bytes received have the length of the first message in flight, and start the same stream.
  have hstream : (part ++ bs) ++ wire = m ++ rest.flatten := by
    rw [List.append_assoc, ← hwire, ← h.stream, List.flatten_cons]
  obtain ⟨hm, hrest⟩ := List.append_inj hstream hfull
  obtain ⟨buf₀, hbuf⟩ := h.buf_append bs
  have hdelivered : Delivered m (.returned m.length, storeFrom s.rcount.toNat bs s.buf) := by
    refine ⟨rfl, fun j hj => ?_⟩
    have hread := storeFrom_of_lt 0 hj buf₀
    rw [Nat.zero_add] at hread
    rw [hbuf, hm]
    exact hread
  exact {
    split := by simp [h.split]
    done := List.rel_append h.done (.cons hdelivered .nil)
    toRecv := rfl
    stream := hrest.symm
    room := fun m' hm' => by
      have hmem : m' ∈ ms := by
        rw [h.split]
        simp [List.mem_of_mem_head? hm']
      exact List.length_pos_of_ne_nil (hne m' hmem)
    size := fun m' hm' => h.size m' (List.mem_cons_of_mem _ hm')
    rcount := rfl
    buf := ⟨buf, rfl⟩
    closed := h.closed }

/-- While a call of `recvFully` is under way and the system has something to deliver to it, a
message is in flight. -/
theorem exists_flight (h : Inv ms s got flight part) {r : Received}
    (hok : Admissible s (.recv r)) :
    ∃ m rest, flight = m :: rest ∧ 1 ≤ r.len ∧
      r.len ≤ (asked (BitVec.ofNat 64 m.length) part.length).toNat := by
  obtain ⟨hpre, -, bufferLen, lens, hlens, hlen⟩ := hok
  have hrecv := h.toRecv
  cases flight with
  | nil =>
    have hwire : s.wire = [] := (List.append_eq_nil_iff.1 h.stream.symm).2
    rcases hlen with ⟨hpos, -⟩ | ⟨-, hclosed, -⟩
    · -- The stream is empty, so nothing can be delivered.
      rw [hwire, List.prefix_nil] at hpre
      have hbytes := r.length_bytes
      rw [hpre, List.length_nil] at hbytes
      omega
    · rw [hlens, h.closed hclosed] at hrecv
      cases hrecv
  | cons m rest =>
    rw [hlens, List.cons_append, List.map_cons] at hrecv
    obtain ⟨rfl, -⟩ := List.cons.inj hrecv
    rcases hlen with ⟨hpos, hle⟩ | ⟨-, -, hwire⟩
    · rw [h.rcount] at hle
      exact ⟨m, rest, rfl, hpos, hle⟩
    · cases (h.flight_eq_nil hwire).1

theorem recv (h : Inv ms s got flight part) (hne : ∀ m ∈ ms, m ≠ []) {r : Received}
    (hok : Admissible s (.recv r)) :
    ∃ got flight part, Inv ms ((pair bufs).step s (.recv r)).2 got flight part := by
  obtain ⟨m, rest, rfl, hpos, hle⟩ := h.exists_flight hok
  obtain ⟨⟨wire, hwire⟩, -⟩ := hok
  have hroom : part.length < m.length := h.room m rfl
  have hm : (BitVec.ofNat 64 m.length).toNat = m.length := by
    have hsize := h.size m List.mem_cons_self
    rw [BitVec.toNat_ofNat, Nat.mod_eq_of_lt (by omega)]
  have hlens : s.toRecv = BitVec.ofNat 64 m.length ::
      (rest ++ s.toSend).map fun m => BitVec.ofNat 64 m.length := h.toRecv
  have hdrop : s.wire.drop r.bytes.length = wire := by rw [← hwire, List.drop_left]
  have hsum : (part ++ r.bytes).length = part.length + r.len.toNat := by
    rw [List.length_append, r.length_bytes]
  obtain ⟨hneg, -⟩ | ⟨-, hmore, heq⟩ | ⟨-, hend, heq⟩ :=
    afterRecv_cases (by rw [hm]; exact h.size m List.mem_cons_self) (by rw [hm]; exact hroom.le)
      hle
  · omega
  · rw [hm, ← hsum] at hmore
    rw [← h.rcount, ← hsum] at heq
    rw [step_waiting hlens heq, hdrop]
    exact ⟨_, _, _, h.waiting hwire.symm hmore⟩
  · have hfull : (part ++ r.bytes).length = m.length := by
      rw [hm] at hend
      omega
    rw [← h.rcount, ← hsum, hfull] at heq
    rw [step_ended hlens heq, hdrop]
    exact ⟨_, _, _, h.ended hne hwire.symm hfull _⟩

end Recv

/-- **Every step keeps the invariant**, as long as messages are taken whole. -/
theorem step (h : Inv ms s got flight part) (hne : ∀ m ∈ ms, m ≠ []) {e : Event}
    (hok : Admissible s e) (hwhole : Whole s e) :
    ∃ got flight part, Inv ms ((pair bufs).step s e).2 got flight part := by
  cases e with
  | send count =>
    obtain ⟨hopen, m, rest, hm, -, -, hfits⟩ := hok
    have hcount : count = m.length := hwhole m (by rw [hm]; rfl)
    subst hcount
    have hsize : m.length < 2 ^ 63 := by
      unfold Fits at hfits
      omega
    have hmem : m ∈ ms := by simp [h.split, hm]
    have hstep : ((pair bufs).step s (.send m.length)).2 =
        { s with toSend := rest, wire := s.wire ++ m } := by
      simp [pair, hm]
    rw [hstep]
    exact ⟨_, _, _, h.send hm (hne m hmem) hsize hopen⟩
  | close => exact ⟨_, _, _, h.close hok⟩
  | recv r => exact h.recv hne hok

end Inv

/-! ## Runs -/

/-- **When every `::send` takes the whole message, nothing is lost**: the calls of `recvFully` that
have returned have delivered the first messages, one each, and all messages are delivered when all
are sent and the stream is empty. -/
theorem pair_delivers (bufs : ℕ → Buffer) (ms : List (List Byte)) (es : List Event)
    (hne : ∀ m ∈ ms, m ≠ [])
    (hes : (pair bufs).Along Admissible (Pair.init bufs ms) es)
    (hwhole : (pair bufs).Along Whole (Pair.init bufs ms) es) :
    let s := (pair bufs).exec (Pair.init bufs ms) es
    List.Forall₂ Delivered (ms.take s.done.length) s.done ∧
      (s.toSend = [] → s.wire = [] → s.done.length = ms.length) := by
  intro s
  have hinit : ∃ got flight part, Inv ms (Pair.init bufs ms) got flight part :=
    ⟨_, _, _, Inv.init bufs ms⟩
  obtain ⟨got, flight, part, h⟩ : ∃ got flight part, Inv ms s got flight part :=
    Machine.exec_invariant (P := fun s => ∃ got flight part, Inv ms s got flight part)
      (fun s e ⟨_, _, _, h⟩ hok => h.step hne hok.1 hok.2) es hinit (hes.and hwhole)
  have hlen : s.done.length = got.length := h.done.length_eq.symm
  constructor
  · rw [hlen, h.split, List.take_left]
    exact h.done
  · intro hsend hwire
    have hms := h.split
    rw [hsend, (h.flight_eq_nil hwire).1, List.append_nil, List.append_nil] at hms
    rw [hlen, hms]

/-- Two messages, taken whole and delivered byte by byte. -/
theorem pair_delivers_two :
    let s := (pair fun _ _ => 0).exec (Pair.init (fun _ _ => 0) [[1, 2], [3]])
      [.send 2, .recv (.of [1]), .send 1, .close, .recv (.of [2]), .recv (.of [3])]
    List.Forall₂ Delivered ([[1, 2], [3]].take s.done.length) s.done ∧
      (s.toSend = [] → s.wire = [] → s.done.length = 2) :=
  pair_delivers (fun _ _ => 0) [[1, 2], [3]]
    [.send 2, .recv (.of [1]), .send 1, .close, .recv (.of [2]), .recv (.of [3])]
    (by decide)
    ⟨⟨rfl, _, _, rfl, by decide, by decide, by decide⟩,
      ⟨⟨[2], rfl⟩, by decide, _, _, rfl, .inl ⟨by decide, by decide⟩⟩,
      ⟨rfl, _, _, rfl, by decide, by decide, by decide⟩, rfl,
      ⟨⟨[3], rfl⟩, by decide, _, _, rfl, .inl ⟨by decide, by decide⟩⟩,
      ⟨⟨[], rfl⟩, by decide, _, _, rfl, .inl ⟨by decide, by decide⟩⟩, trivial⟩
    ⟨fun m hm => by
        cases hm
        rfl, trivial,
      fun m hm => by
        cases hm
        rfl, trivial, trivial, trivial, trivial⟩

/-- `::send` takes one byte of the first message, so the first byte of the second is received as
its last. -/
theorem pair_shift :
    ¬ ∀ (bufs : ℕ → Buffer) (ms : List (List Byte)) (es : List Event), (∀ m ∈ ms, m ≠ []) →
      (pair bufs).Along Admissible (Pair.init bufs ms) es →
      let s := (pair bufs).exec (Pair.init bufs ms) es
      List.Forall₂ Delivered (ms.take s.done.length) s.done := by
  intro h
  have hall := h (fun _ _ => 0) [[1, 2], [3, 4]]
    [.send 1, .send 2, .recv (.of [1]), .recv (.of [3])] (by decide)
    ⟨⟨rfl, _, _, rfl, by decide, by decide, by decide⟩,
      ⟨rfl, _, _, rfl, by decide, by decide, by decide⟩,
      ⟨⟨[3, 4], rfl⟩, by decide, _, _, rfl, .inl ⟨by decide, by decide⟩⟩,
      ⟨⟨[4], rfl⟩, by decide, _, _, rfl, .inl ⟨by decide, by decide⟩⟩, trivial⟩
  cases hall with
  | cons hfirst _ => exact absurd (hfirst.2 1 (by decide)) (by decide)

end CommSocket

end DBUtl
