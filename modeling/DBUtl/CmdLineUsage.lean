import DBUtl.CmdLineProof
import DBUtl.Lib.BoundedText
import DBUtl.Lib.Checked

/-!
# Usage messages

`throwUsage` of `CmdLine.cpp` puts a text together in a buffer, with `snprintf`, and throws it. The
position in the buffer moves by what `snprintf` returns, which is the length that a piece has and
not what there was room for; the guards stop when it is behind the buffer.

Lengths and the position are of type `int`. A sum that this type does not hold is undefined, and so
is there no result for a length that it does not hold: `snprintf` cannot return it, and as the size
of the buffer it would not be the number that is passed to `malloc`. Short of that the text thrown
is the one wanted, as far as there is room for it.

* `wanted`, `InRange` — the text, and when nothing overflows.
* `throwUsage_iff` — the result.
-/

namespace DBUtl

namespace CmdLine

/-! ## The function -/

/-- The bytes of a string literal. -/
def ascii (s : String) : List Byte := s.toList.map fun c => UInt8.ofNat c.toNat

/-- `snprintf` into the `size` places from `i` on, when the text `out` is what the format and the
arguments give. It returns the length of `out`. -/
def snprintf (i size : ℕ) (out : List Byte) (buf : ℕ → Byte) : Option (ℤ × (ℕ → Byte)) :=
  (checked 31 out.length).map fun len => (len, printAt 0 i size out buf)

/-- `if( n < BSIZE ) n += snprintf( (buf+n), (BSIZE-n), .. )` -/
def appendText (bsize : ℤ) (out : List Byte) (n : ℤ) (buf : ℕ → Byte) :
    Option (ℤ × (ℕ → Byte)) :=
  if n < bsize then do
    let (len, buf) ← snprintf n.toNat (bsize - n).toNat out buf
    let n ← checked 31 (n + len)
    some (n, buf)
  else some (n, buf)

/-- The string in the first `size` places of memory. There is none if they hold no NUL. -/
def readString (size : ℕ) (buf : ℕ → Byte) : Option CString :=
  if h : ∃ n < size, buf n = 0 then some (copyCString ⟨buf, h.imp fun _ => And.right⟩) else none

def usageText (usage : Option CString) : List Byte := (usage.map CString.bytes).getD []

/-- `"%s\n"` with the message. -/
def messageText (m : CString) : List Byte := m.bytes ++ ascii "\n"

/-- `"Usage: %s [args]\n"` with the name by which the program was invoked. -/
def usageLine (name : CString) : List Byte := ascii "Usage: " ++ name.bytes ++ ascii " [args]\n"

/-- The size of the buffer, as a number. -/
def bufferSize (usage : Option CString) : ℕ := 256 + (usageText usage).length

/-- `if( m ) n = snprintf( buf, BSIZE, "%s\n", m )`, where `n` is zero before. -/
def putMessage (bsize : ℤ) (m : Option CString) (buf : ℕ → Byte) : Option (ℤ × (ℕ → Byte)) :=
  match m with
  | none => some (0, buf)
  | some m => snprintf 0 bsize.toNat (messageText m) buf

/-- The text thrown, and the memory behind it. `buf` is what `malloc` has returned. -/
def throwUsage (name : CString) (usage m : Option CString) (buf : ℕ → Byte) :
    Option (CString × (ℕ → Byte)) := do
  let bsize ← checked 31 (bufferSize usage)
  let (n, buf) ← putMessage bsize m buf
  let (n, buf) ← appendText bsize (usageLine name) n buf
  let (_, buf) ← appendText bsize (usageText usage) n buf
  let text ← readString bsize.toNat buf
  some (text, buf)

/-! ## The text wanted -/

/-- The message with its newline, if there is one. -/
def leading (m : Option CString) : List Byte := (m.map messageText).getD []

def wanted (name : CString) (usage m : Option CString) : List Byte :=
  leading m ++ usageLine name ++ usageText usage

theorem nul_notMem_wanted (name : CString) (usage m : Option CString) :
    0 ∉ wanted name usage m := by
  have hascii : 0 ∉ ascii "\n" ∧ 0 ∉ ascii "Usage: " ∧ 0 ∉ ascii " [args]\n" := by decide
  have husage : 0 ∉ usageText usage := by
    cases usage with
    | none => simp [usageText]
    | some u => exact u.nul_notMem
  have hleading : 0 ∉ leading m := by
    cases m with
    | none => simp [leading]
    | some m => simpa [leading, messageText] using ⟨m.nul_notMem, hascii.1⟩
  simpa [wanted, usageLine, husage, hleading] using ⟨hascii.2.1, name.nul_notMem, hascii.2.2⟩

/-- No length and no position on the way exceeds the type `int`. -/
def InRange (name : CString) (usage m : Option CString) : Prop :=
  bufferSize usage < 2 ^ 31 ∧ (leading m).length < 2 ^ 31 ∧
    ((leading m).length < bufferSize usage →
      (leading m).length + (usageLine name).length < 2 ^ 31 ∧
        ((leading m).length + (usageLine name).length < bufferSize usage →
          (leading m).length + (usageLine name).length + (usageText usage).length < 2 ^ 31))

/-! ## One piece -/

/-- The message, when its length does not overflow. -/
theorem putMessage_printed {size : ℕ} (hsize : 0 < size) {m : Option CString}
    (hfit : (leading m).length < 2 ^ 31) (buf : ℕ → Byte) :
    ∃ buf', putMessage size m buf = some (((leading m).length : ℤ), buf') ∧
      Printed 0 size buf buf' (leading m) (leading m).length := by
  have hstart : Printed 0 size buf buf [] 0 := Printed.start hsize buf
  cases m with
  | none => exact ⟨buf, rfl, hstart⟩
  | some m =>
    have hprint := hstart.print hsize (messageText m)
    rw [List.nil_append, Nat.zero_add] at hprint
    refine ⟨_, ?_, hprint⟩
    have hlen : checked 31 ((messageText m).length : ℤ) = some ((messageText m).length : ℤ) :=
      checked_natCast hfit
    unfold putMessage snprintf
    dsimp only
    rw [hlen, Option.map_some, Int.toNat_natCast]
    rfl

theorem putMessage_eq_none {m : Option CString} (hfit : ¬ (leading m).length < 2 ^ 31)
    (bsize : ℤ) (buf : ℕ → Byte) : putMessage bsize m buf = none := by
  cases m with
  | none => exact absurd (by decide) hfit
  | some m =>
    have hlen : checked 31 ((messageText m).length : ℤ) = none := checked_natCast_eq_none hfit
    unfold putMessage snprintf
    dsimp only
    rw [hlen, Option.map_none]

section Append

variable {size n : ℕ} {buf₀ buf : ℕ → Byte} {w out : List Byte}

theorem appendText_of_le (h : size ≤ n) (out : List Byte) (buf : ℕ → Byte) :
    appendText size out n buf = some ((n : ℤ), buf) := if_neg (by omega)

theorem appendText_of_lt (h : n < size) (hfit : n + out.length < 2 ^ 31) (buf : ℕ → Byte) :
    appendText size out n buf =
      some (((n + out.length : ℕ) : ℤ), printAt 0 n (size - n) out buf) := by
  have hlen : checked 31 (out.length : ℤ) = some (out.length : ℤ) := checked_natCast (by omega)
  have hsum : checked 31 ((n : ℤ) + out.length) = some ((n + out.length : ℕ) : ℤ) := by
    rw [← Nat.cast_add]
    exact checked_natCast hfit
  have hroom : ((size : ℤ) - n).toNat = size - n := by omega
  have hlt : (n : ℤ) < size := by omega
  unfold appendText
  rw [if_pos hlt]
  unfold snprintf
  rw [hlen, hroom]
  rw [Option.map_some]
  rw [Option.bind_eq_bind, Option.bind_some]
  dsimp only
  rw [hsum, Option.bind_eq_bind, Option.bind_some, Int.toNat_natCast]

/-- A position that overflows. -/
theorem appendText_eq_none (h : n < size) (hfit : ¬ n + out.length < 2 ^ 31) (buf : ℕ → Byte) :
    appendText size out n buf = none := by
  have hsum : checked 31 ((n : ℤ) + out.length) = none := by
    rw [← Nat.cast_add]
    exact checked_natCast_eq_none hfit
  have hlt : (n : ℤ) < size := by omega
  unfold appendText
  rw [if_pos hlt]
  unfold snprintf
  by_cases hlen : Fits 31 (out.length : ℤ)
  · rw [checked_of_fits hlen, Option.map_some, Option.bind_eq_bind, Option.bind_some]
    dsimp only
    rw [hsum, Option.bind_eq_bind, Option.bind_none]
  · rw [checked_of_not_fits hlen, Option.map_none, Option.bind_eq_bind, Option.bind_none]

/-- One piece, when no position overflows. -/
theorem appendText_printed (h : Printed 0 size buf₀ buf w n) (hsize : 0 < size)
    (hfit : n < size → n + out.length < 2 ^ 31) :
    ∃ (n' : ℕ) (buf' : ℕ → Byte), appendText size out n buf = some ((n' : ℤ), buf') ∧
      Printed 0 size buf₀ buf' (w ++ out) n' ∧ n' = if n < size then n + out.length else n := by
  by_cases hn : n < size
  · exact ⟨_, _, appendText_of_lt hn (hfit hn) buf, h.print hn out, by rw [if_pos hn]⟩
  · have hle : size ≤ n := not_lt.mp hn
    exact ⟨n, buf, appendText_of_le hle out buf, h.skip hsize hle out, by rw [if_neg hn]⟩

end Append

/-- The text is read back from the buffer. -/
theorem readString_printed {size n : ℕ} {buf₀ buf : ℕ → Byte} {w : List Byte}
    (h : Printed 0 size buf₀ buf w n) (hsize : 0 < size) (hn : n ≠ 0) (hw : 0 ∉ w) :
    ∃ text, readString size buf = some text ∧ text.bytes = w.take (size - 1) := by
  have hnul := h.terminated.resolve_left hn
  have hex : ∃ n < size, buf n = 0 := ⟨_, by omega, hnul⟩
  refine ⟨_, dif_pos hex, Holds.copyCString_eq ?_ ?_ fun h0 => hw (List.mem_of_mem_take h0)⟩
  · intro k hk
    rw [List.length_take] at hk
    rw [List.getElem_take]
    exact h.get k (by omega) (by omega)
  · rwa [List.length_take]

/-! ## The message thrown -/

/-- The text wanted is thrown, as far as there is room for it, and nothing is written outside the
buffer. -/
def ThrowsWanted (name : CString) (usage m : Option CString) (buf : ℕ → Byte) : Prop :=
  ∃ text buf', throwUsage name usage m buf = some (text, buf') ∧
    text.bytes = (wanted name usage m).take (bufferSize usage - 1) ∧
    ∀ j, bufferSize usage ≤ j → buf' j = buf j

section Usage

variable {name : CString} {usage m : Option CString}

theorem usageLine_pos (name : CString) : 0 < (usageLine name).length := by
  simp [usageLine, ascii]

theorem bufferSize_pos (usage : Option CString) : 0 < bufferSize usage := by
  unfold bufferSize
  omega

/-- What is left of the call behind the message. -/
theorem throwUsage_eq (hsize : bufferSize usage < 2 ^ 31) {n : ℤ} {buf buf₁ : ℕ → Byte}
    (hput : putMessage (bufferSize usage) m buf = some (n, buf₁)) :
    throwUsage name usage m buf =
      (appendText (bufferSize usage) (usageLine name) n buf₁).bind fun line =>
        (appendText (bufferSize usage) (usageText usage) line.1 line.2).bind fun last =>
          (readString (bufferSize usage) last.2).bind fun text => some (text, last.2) := by
  unfold throwUsage
  rw [checked_natCast hsize, Option.bind_eq_bind, Option.bind_some, hput]
  rw [Option.bind_eq_bind, Option.bind_some]
  rfl

/-- The three pieces, one after the other. -/
theorem throwsWanted_of_inRange (h : InRange name usage m) (buf : ℕ → Byte) :
    ThrowsWanted name usage m buf := by
  obtain ⟨hsize, hlead, hline⟩ := h
  have hpos := bufferSize_pos usage
  obtain ⟨buf₁, hput, hprinted₁⟩ := putMessage_printed hpos hlead buf
  obtain ⟨n₂, buf₂, happ₂, hprinted₂, hn₂⟩ :=
    appendText_printed hprinted₁ hpos fun hlt => (hline hlt).1
  have hfit₃ : n₂ < bufferSize usage → n₂ + (usageText usage).length < 2 ^ 31 := by
    intro hlt
    split_ifs at hn₂ with hroom
    · subst hn₂
      exact (hline hroom).2 hlt
    · omega
  obtain ⟨n₃, buf₃, happ₃, hprinted₃, hn₃⟩ := appendText_printed hprinted₂ hpos hfit₃
  -- the line alone moves the position, so that there is a terminator
  have hne : n₃ ≠ 0 := by
    have := usageLine_pos name
    split_ifs at hn₂ hn₃ <;> omega
  obtain ⟨text, hread, htext⟩ :=
    readString_printed hprinted₃ hpos hne (nul_notMem_wanted name usage m)
  refine ⟨text, buf₃, ?_, htext, hprinted₃.frame⟩
  rw [throwUsage_eq hsize hput, happ₂, Option.bind_some, happ₃, Option.bind_some, hread,
    Option.bind_some]

/-- There is no result when something overflows. -/
theorem throwUsage_eq_none (h : ¬ InRange name usage m) (buf : ℕ → Byte) :
    throwUsage name usage m buf = none := by
  by_cases hsize : bufferSize usage < 2 ^ 31
  swap
  · rw [throwUsage, checked_natCast_eq_none hsize, Option.bind_eq_bind, Option.bind_none]
  by_cases hlead : (leading m).length < 2 ^ 31
  swap
  · rw [throwUsage, checked_natCast hsize, Option.bind_eq_bind, Option.bind_some,
      putMessage_eq_none hlead, Option.bind_eq_bind, Option.bind_none]
  obtain ⟨buf₁, hput, -⟩ := putMessage_printed (bufferSize_pos usage) hlead buf
  rw [throwUsage_eq hsize hput]
  -- the message leaves room, or else nothing more is added
  have hroom : (leading m).length < bufferSize usage := by
    by_contra hfull
    exact h ⟨hsize, hlead, fun hlt => absurd hlt hfull⟩
  by_cases hline : (leading m).length + (usageLine name).length < 2 ^ 31
  swap
  · rw [appendText_eq_none hroom hline, Option.bind_none]
  rw [appendText_of_lt hroom hline, Option.bind_some]
  have hroom₂ : (leading m).length + (usageLine name).length < bufferSize usage := by
    by_contra hfull
    exact h ⟨hsize, hlead, fun _ => ⟨hline, fun hlt => absurd hlt hfull⟩⟩
  have hover : ¬ (leading m).length + (usageLine name).length + (usageText usage).length < 2 ^ 31 :=
    fun hfit => h ⟨hsize, hlead, fun _ => ⟨hline, fun _ => hfit⟩⟩
  rw [appendText_eq_none hroom₂ hover, Option.bind_none]

end Usage

/-- **`throwUsage` throws the text wanted**, cut to its buffer, exactly when nothing overflows. -/
theorem throwUsage_iff (name : CString) (usage m : Option CString) (buf : ℕ → Byte) :
    ThrowsWanted name usage m buf ↔ InRange name usage m := by
  refine ⟨?_, fun h => throwsWanted_of_inRange h buf⟩
  rintro ⟨text, buf', heq, -⟩
  by_contra hrange
  rw [throwUsage_eq_none hrange] at heq
  cases heq

/-- A one-byte message, and a name with which the position gets to `INT_MAX + 1`. -/
theorem not_throwsWanted :
    ¬ ∀ (name : CString) (usage m : Option CString) (buf : ℕ → Byte),
      ThrowsWanted name usage m buf := by
  intro h
  have hnul : (0 : Byte) ∉ List.replicate (2 ^ 31 - 17) 0x61 := by
    rw [List.mem_replicate]
    rintro ⟨-, hzero⟩
    cases hzero
  obtain ⟨text, buf', heq, -⟩ :=
    h ⟨List.replicate (2 ^ 31 - 17) 0x61, hnul⟩ none (some ⟨[0x78], by decide⟩) fun _ => 0
  rw [throwUsage_eq_none] at heq
  · cases heq
  · rintro ⟨-, -, hline⟩
    obtain ⟨hover, -⟩ := hline (by decide)
    have hlead : (leading (some ⟨[0x78], by decide⟩)).length = 2 := by decide
    have hascii : (ascii "Usage: ").length = 7 ∧ (ascii " [args]\n").length = 8 := by decide
    rw [hlead, usageLine, List.length_append, List.length_append, List.length_replicate] at hover
    omega

end CmdLine

end DBUtl
