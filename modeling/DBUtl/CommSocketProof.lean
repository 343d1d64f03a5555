import DBUtl.CommSocket

/-!
# What `recvFully` reads

Before result `i` is taken, the count is the number of bytes that the earlier results have brought,
and those bytes stand in the buffer, one after the other from its start (`recvFrom_ends`, by
induction on the loop). A result is no longer than what was asked for, which is what the buffer has
left, so no sum overflows and nothing is written behind the buffer.
-/

namespace DBUtl

namespace CommSocket

/-- The bytes of the first `n` results, in order. -/
def received (results : ℕ → Received) (n : ℕ) : List Byte :=
  (List.range n).flatMap fun i => (results i).bytes

theorem received_succ (results : ℕ → Received) (n : ℕ) :
    received results (n + 1) = received results n ++ (results n).bytes := by
  simp [received, List.range_succ]

theorem length_received_succ (results : ℕ → Received) (n : ℕ) :
    (received results (n + 1)).length = (received results n).length + (results n).len.toNat := by
  rw [received_succ, List.length_append, (results n).length_bytes]

/-- Storing one more result behind the earlier ones. -/
theorem storeFrom_received (results : ℕ → Received) (n : ℕ) (buf : Buffer) :
    storeFrom (received results n).length (results n).bytes (storeFrom 0 (received results n) buf) =
      storeFrom 0 (received results (n + 1)) buf := by
  rw [received_succ, storeFrom_append, Nat.zero_add]

theorem length_received_mono (results : ℕ → Received) {m n : ℕ} (h : m ≤ n) :
    (received results m).length ≤ (received results n).length := by
  induction n, h using Nat.le_induction with
  | base => exact le_rfl
  | succ n _ ih =>
    rw [length_received_succ]
    exact ih.trans (Nat.le_add_right _ _)

/-! ## One result -/

section Step

variable {bufferLen : Size} {c : ℕ} {len : ℤ}

theorem toNat_asked (h : c ≤ bufferLen.toNat) :
    (asked bufferLen c).toNat = bufferLen.toNat - c := by
  have hlt := bufferLen.isLt
  rw [asked, BitVec.ofInt_natCast, BitVec.toNat_sub, BitVec.toNat_ofNat]
  omega

theorem afterRecv_of_neg (h : len < 0) (rcount : ℤ) :
    afterRecv bufferLen rcount len =
      some (.inr (.threw ⟨"Receive failed (recv())", false⟩)) := by
  unfold afterRecv more
  simp [h, h.not_gt]

/-- A result that fits into the rest of the buffer. -/
theorem afterRecv_of_le (hbuf : bufferLen.toNat < 2 ^ 63) (h0 : 0 ≤ len)
    (hle : c + len.toNat ≤ bufferLen.toNat) :
    afterRecv bufferLen c len =
      if 0 < len ∧ c + len.toNat < bufferLen.toNat then some (.inl ((c + len.toNat : ℕ) : ℤ))
      else some (.inr (.returned ((c + len.toNat : ℕ) : ℤ))) := by
  have hsum : (c : ℤ) + len = ((c + len.toNat : ℕ) : ℤ) := by omega
  generalize c + len.toNat = sum at hle hsum ⊢
  have hfits : Fits 63 (sum : ℤ) := fits_natCast_iff.mpr (by omega)
  have hlt : BitVec.ofNat 64 sum < bufferLen ↔ sum < bufferLen.toNat := by
    rw [BitVec.lt_def, BitVec.toNat_ofNat, Nat.mod_eq_of_lt (by omega)]
  unfold afterRecv more
  rw [hsum, checked_of_fits hfits]
  by_cases hpos : 0 < len
  · by_cases hmore : sum < bufferLen.toNat
    · simp [hpos, hlt.2 hmore, hmore]
    · simp [hpos, mt hlt.1 hmore, hmore, h0.not_gt]
  · simp [hpos, h0.not_gt]

/-- What a result of at most the length asked for leads to. -/
theorem afterRecv_cases (hbuf : bufferLen.toNat < 2 ^ 63) (hc : c ≤ bufferLen.toNat)
    (hlen : len ≤ (asked bufferLen c).toNat) :
    (len < 0 ∧ afterRecv bufferLen c len =
      some (.inr (.threw ⟨"Receive failed (recv())", false⟩))) ∨
    (0 < len ∧ c + len.toNat < bufferLen.toNat ∧
      afterRecv bufferLen c len = some (.inl ((c + len.toNat : ℕ) : ℤ))) ∨
    (0 ≤ len ∧ (len = 0 ∧ c ≤ bufferLen.toNat ∨ c + len.toNat = bufferLen.toNat) ∧
      afterRecv bufferLen c len = some (.inr (.returned ((c + len.toNat : ℕ) : ℤ)))) := by
  rw [toNat_asked hc] at hlen
  by_cases hneg : len < 0
  · exact .inl ⟨hneg, afterRecv_of_neg hneg c⟩
  have h0 : 0 ≤ len := not_lt.1 hneg
  have hstep := afterRecv_of_le (c := c) hbuf h0 (by omega)
  by_cases hmore : 0 < len ∧ c + len.toNat < bufferLen.toNat
  · rw [if_pos hmore] at hstep
    exact .inr (.inl ⟨hmore.1, hmore.2, hstep⟩)
  · rw [if_neg hmore] at hstep
    exact .inr (.inr ⟨h0, by omega, hstep⟩)

end Step

/-! ## The loop -/

/-- The run takes the results from `i` to `n` and stops there. -/
structure Ends (results : ℕ → Received) (bufferLen : Size) (buf : Buffer) (i n : ℕ) (run : Run) :
    Prop where
  le : i ≤ n
  calls : run.calls = (List.range' i (n + 1 - i)).map fun j =>
    ((received results j).length, asked bufferLen (received results j).length)
  more : ∀ j, i ≤ j → j < n →
    0 < (results j).len ∧ (received results (j + 1)).length < bufferLen.toNat
  buf_eq : run.buf = storeFrom 0 (received results (n + 1)) buf
  length_le : (received results (n + 1)).length ≤ bufferLen.toNat
  outcome : run.outcome = some (if (results n).len < 0 then
    .threw ⟨"Receive failed (recv())", false⟩ else .returned (received results (n + 1)).length)
  last : (results n).len ≤ 0 ∨ (received results (n + 1)).length = bufferLen.toNat

/-- A run that stops on its first result. -/
theorem Ends.single {results : ℕ → Received} {bufferLen : Size} {buf₀ buf : Buffer} {i : ℕ}
    {o : Outcome} (hbuf : buf = storeFrom 0 (received results (i + 1)) buf₀)
    (hle : (received results (i + 1)).length ≤ bufferLen.toNat)
    (ho : o = if (results i).len < 0 then .threw ⟨"Receive failed (recv())", false⟩
      else .returned (received results (i + 1)).length)
    (hlast : (results i).len ≤ 0 ∨ (received results (i + 1)).length = bufferLen.toNat) :
    Ends results bufferLen buf₀ i i ⟨some o, buf,
      [((received results i).length, asked bufferLen (received results i).length)]⟩ where
  le := le_rfl
  calls := by
    rw [Nat.add_sub_cancel_left]
    rfl
  more j hij hji := absurd hij hji.not_ge
  buf_eq := hbuf
  length_le := hle
  outcome := congrArg some ho
  last := hlast

/-- A run that goes on after its first result. -/
theorem Ends.cons {results : ℕ → Received} {bufferLen : Size} {buf₀ : Buffer} {i n : ℕ} {run : Run}
    (hpos : 0 < (results i).len) (hmore : (received results (i + 1)).length < bufferLen.toNat)
    (h : Ends results bufferLen buf₀ (i + 1) n run) :
    Ends results bufferLen buf₀ i n ⟨run.outcome, run.buf,
      ((received results i).length, asked bufferLen (received results i).length) :: run.calls⟩ where
  le := (Nat.le_succ i).trans h.le
  calls := by
    have hin := h.le
    rw [show n + 1 - i = n + 1 - (i + 1) + 1 by omega, List.range'_succ, List.map_cons, ← h.calls]
  more j hij hjn := by
    by_cases hj : j = i
    · subst hj
      exact ⟨hpos, hmore⟩
    · exact h.more j (by omega) hjn
  buf_eq := h.buf_eq
  length_le := h.length_le
  outcome := h.outcome
  last := h.last

theorem recvFrom_ends {results : ℕ → Received} {bufferLen : Size} {buf₀ : Buffer}
    (hlen : bufferLen.toNat < 2 ^ 63) {i : ℕ} {rcount : ℤ} {buf : Buffer}
    (hcount : rcount = (received results i).length)
    (hbuf : buf = storeFrom 0 (received results i) buf₀)
    (hle : (received results i).length ≤ bufferLen.toNat)
    (hres : ∀ j (hj : j < (recvFrom results bufferLen i rcount buf).calls.length),
      (results (i + j)).len ≤ ((recvFrom results bufferLen i rcount buf).calls[j]).2.toNat) :
    ∃ n, Ends results bufferLen buf₀ i n (recvFrom results bufferLen i rcount buf) := by
  fun_induction recvFrom results bufferLen i rcount buf with
  | case1 i rcount buf r buf' call h =>
    subst hcount
    have hlast : (results i).len ≤ (asked bufferLen (received results i).length).toNat :=
      hres 0 Nat.one_pos
    obtain ⟨-, heq⟩ | ⟨-, -, heq⟩ | ⟨-, -, heq⟩ := afterRecv_cases hlen hle hlast
    all_goals
      rw [heq] at h
      cases h
  | case2 i rcount buf r buf' call o h =>
    subst hcount
    have hlast : (results i).len ≤ (asked bufferLen (received results i).length).toNat :=
      hres 0 Nat.one_pos
    have hsucc := length_received_succ results i
    have hbuf' : buf' = storeFrom 0 (received results (i + 1)) buf₀ := by
      rw [← storeFrom_received, ← hbuf]
      rfl
    obtain ⟨hneg, heq⟩ | ⟨-, -, heq⟩ | ⟨h0, hend, heq⟩ := afterRecv_cases hlen hle hlast
    · rw [heq] at h
      cases h
      exact ⟨i, .single hbuf' (by omega) (if_pos hneg).symm (.inl hneg.le)⟩
    · rw [heq] at h
      cases h
    · rw [heq] at h
      cases h
      exact ⟨i, .single hbuf' (by omega) (by rw [if_neg h0.not_gt, hsucc]) (by omega)⟩
  | case3 i rcount buf r buf' call sum h run ih =>
    subst hcount
    have hlast : (results i).len ≤ (asked bufferLen (received results i).length).toNat :=
      hres 0 (Nat.succ_pos _)
    have hsucc := length_received_succ results i
    have hbuf' : buf' = storeFrom 0 (received results (i + 1)) buf₀ := by
      rw [← storeFrom_received, ← hbuf]
      rfl
    obtain ⟨-, heq⟩ | ⟨hpos, hmore, heq⟩ | ⟨-, -, heq⟩ := afterRecv_cases hlen hle hlast
    · rw [heq] at h
      cases h
    · rw [heq] at h
      cases h
      rw [← hsucc] at hmore
      obtain ⟨n, hn⟩ := ih (by rw [hsucc]) hbuf' hmore.le fun j hj => by
        have hj' := hres (j + 1) (Nat.succ_lt_succ hj)
        rwa [show i + (j + 1) = i + 1 + j by omega] at hj'
      exact ⟨n, hn.cons hpos hmore⟩
    · rw [heq] at h
      cases h

/-- The first call asks for the whole buffer. -/
theorem head_calls (results : ℕ → Received) (bufferLen : Size) (buf : Buffer)
    (h : 0 < (recvFully results bufferLen buf).calls.length) :
    (recvFully results bufferLen buf).calls[0] = (0, bufferLen) := by
  have hhead : (recvFully results bufferLen buf).calls.head? = some (0, bufferLen) := by
    rw [recvFully, recvFrom]
    split <;> simp [asked]
  rwa [List.head?_eq_getElem?, List.getElem?_eq_getElem h, Option.some.injEq] at hhead

theorem recvFully_ends {results : ℕ → Received} {bufferLen : Size} (buf : Buffer)
    (hlen : bufferLen.toNat < 2 ^ 63)
    (hres : ∀ i (hi : i < (recvFully results bufferLen buf).calls.length),
      (results i).len ≤ ((recvFully results bufferLen buf).calls[i]).2.toNat) :
    ∃ n, Ends results bufferLen buf 0 n (recvFully results bufferLen buf) := by
  refine recvFrom_ends hlen rfl rfl (Nat.zero_le _) fun j hj => ?_
  rw [Nat.zero_add]
  exact hres j hj

/-- The first zero is the last result, or comes after the buffer is full. -/
theorem Ends.length_eq_min {results : ℕ → Received} {bufferLen : Size} {buf : Buffer} {n : ℕ}
    {run : Run} (hn : Ends results bufferLen buf 0 n run) (h0 : 0 ≤ (results n).len) {z : ℕ}
    (hz : (results z).len = 0) (hnz : ∀ i < z, (results i).len ≠ 0) :
    (received results (n + 1)).length = min bufferLen.toNat (received results z).length := by
  have hnz' : n ≤ z := by
    by_contra hlt
    exact (hn.more z (Nat.zero_le z) (not_le.1 hlt)).1.ne' hz
  by_cases heq : n = z
  · subst heq
    have hsucc := length_received_succ results n
    rw [hz] at hsucc
    have hle := hn.length_le
    rw [min_eq_right (by omega)]
    simpa using hsucc
  · have hle := length_received_mono results (show n + 1 ≤ z by omega)
    have hlast := hn.last.resolve_left fun h => hnz n (by omega) (le_antisymm h h0)
    rw [min_eq_left (by omega), hlast]

/-- **`recvFully` reads what is available, up to the request.** With `n + 1` results taken, all but
the last are positive and leave room in the buffer; the last fills the buffer, is zero or is
negative. -/
theorem recvFully_spec (results : ℕ → Received) (bufferLen : Size) (buf : Buffer)
    (hlen : bufferLen.toNat < 2 ^ 63)
    (hres : ∀ i (hi : i < (recvFully results bufferLen buf).calls.length),
      (results i).len ≤ ((recvFully results bufferLen buf).calls[i]).2.toNat) :
    ∃ n, let run := recvFully results bufferLen buf
      run.calls.map (fun call => (call.1, call.2.toNat)) = (List.range (n + 1)).map (fun i =>
        ((received results i).length, bufferLen.toNat - (received results i).length)) ∧
      (∀ i < n, 0 < (results i).len ∧ (received results (i + 1)).length < bufferLen.toNat) ∧
      (received results (n + 1)).length ≤ bufferLen.toNat ∧
      (∀ j (hj : j < (received results (n + 1)).length),
        run.buf j = (received results (n + 1))[j]) ∧
      (∀ j, (received results (n + 1)).length ≤ j → run.buf j = buf j) ∧
      ((results n).len < 0 →
        run.outcome = some (.threw ⟨"Receive failed (recv())", false⟩)) ∧
      (0 ≤ (results n).len →
        run.outcome = some (.returned (received results (n + 1)).length) ∧
        (∀ z, (results z).len = 0 → (∀ i < z, (results i).len ≠ 0) →
          (received results (n + 1)).length = min bufferLen.toNat (received results z).length) ∧
        ((∀ z, (results z).len ≠ 0) →
          (received results (n + 1)).length = bufferLen.toNat)) := by
  obtain ⟨n, hn⟩ := recvFully_ends buf hlen hres
  have hmore (i : ℕ) (hi : i < n) := hn.more i (Nat.zero_le i) hi
  have hfull (i : ℕ) (hi : i ≤ n) : (received results i).length ≤ bufferLen.toNat :=
    (length_received_mono results (hi.trans (Nat.le_succ n))).trans hn.length_le
  refine ⟨n, ?_, hmore, hn.length_le, fun j hj => ?_, fun j hj => ?_, fun hneg => ?_,
    fun h0 => ⟨?_, fun z hz hnz => ?_, fun hnz => ?_⟩⟩
  · rw [hn.calls, List.map_map, Nat.sub_zero, ← List.range_eq_range']
    refine List.map_congr_left fun i hi => ?_
    have hin : i ≤ n := Nat.le_of_lt_succ (List.mem_range.1 hi)
    simp [toNat_asked (hfull i hin)]
  · have hread := storeFrom_of_lt 0 hj buf
    rw [Nat.zero_add] at hread
    rw [hn.buf_eq, hread]
  · rw [hn.buf_eq]
    exact storeFrom_of_notMem (.inr (by omega)) buf
  · rw [hn.outcome, if_pos hneg]
  · rw [hn.outcome, if_neg h0.not_gt]
  · exact hn.length_eq_min h0 hz hnz
  · exact hn.last.resolve_left fun h => hnz n (le_antisymm h h0)

/-- Two bytes, then the end of the stream. -/
theorem recvFully_spec_short :
    (recvFully (fun i => .of (if i = 0 then [1, 2] else [])) 4 fun _ => 0).outcome =
      some (.returned 2) := by
  obtain ⟨n, hn⟩ := recvFully_spec (fun i => .of (if i = 0 then [1, 2] else [])) 4 (fun _ => 0)
    (by decide) (fun i hi => by
      by_cases h0 : i = 0
      · subst h0
        rw [head_calls]
        decide
      · simp [Received.of, h0])
  have hlen : 0 ≤ (Received.of (if n = 0 then [1, 2] else [])).len := Int.natCast_nonneg _
  obtain ⟨hout, hzero, -⟩ := hn.2.2.2.2.2.2 hlen
  rw [hout, hzero 1 rfl (by decide)]
  rfl

end CommSocket

end DBUtl
