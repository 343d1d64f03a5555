import DBUtl.CmdLineProof
import Mathlib.Data.List.TakeWhile

/-!
# Tokens and what they were cut from

One call of `getToken` reads the next field: the characters that are no spaces, up to a delimiter
that is no space. It stays within its buffer and leaves the pointer behind the delimiter, or at the
NUL. So repeated calls give the text back, if the buffer is large enough for every field.

* `Tokenized` — what a call promises.
* `tokens` — repeated calls.
* `getToken_lossless` — the result.
-/

namespace DBUtl

namespace CmdLine

variable {loc : Locale} {delims : CString}

/-! ## The next field -/

/-- The next field of a string. -/
def nextField (loc : Locale) (delims s : CString) : List Byte :=
  (s.text loc).takeWhile (!delims.has ·)

/-- The delimiter of the next field, if it is not the last. -/
def nextDelim (loc : Locale) (delims s : CString) : Option Byte := (s.text loc).find? delims.has

/-- The string is read up to the delimiter `d`: before it are spaces and characters that end no
field, and behind it is `rest`. -/
def Past (loc : Locale) (delims : CString) (s : List Byte) (d : Byte) (rest : List Byte) : Prop :=
  ∃ read, s = read ++ d :: rest ∧ ∀ c ∈ read, loc.isspace c = true ∨ delims.has c = false

/-- What a call of `getToken` at the string `s` promises, with a buffer of length `blen`. -/
structure Tokenized (loc : Locale) (delims : CString) (blen : ℕ) (b : ℕ → Byte) (s : CString)
    (t : Token) : Prop where
  /-- Nothing is written outside the buffer. -/
  frame : ∀ j, blen ≤ j → t.buf.get j = b j
  /-- The NUL of the token is in the buffer. -/
  nul : strlen t.buf < blen
  token : (copyCString t.buf).bytes = (nextField loc delims s).take (blen - 1)
  ret_neg : t.ret = -1 ↔ ∀ c ∈ s.bytes, loc.isspace c = true
  ret_zero : t.ret = 0 ↔ nextField loc delims s ≠ [] ∧ nextDelim loc delims s = none
  ret_delim : t.ret ≠ -1 → t.ret ≠ 0 → ∃ d, nextDelim loc delims s = some d ∧ t.ret = d.toNat
  /-- The pointer is at the NUL. -/
  rest_end : nextDelim loc delims s = none → t.rest.bytes = []
  /-- The pointer is just behind the delimiter. -/
  rest_delim : ∀ d, nextDelim loc delims s = some d → Past loc delims s.bytes d t.rest.bytes

section Scanned

variable {p : Byte → Bool} {w f w' : List Byte} {r : ℤ}

theorem Scanned.field_eq (h : Scanned p w r f w') : f = w.takeWhile (!p ·) := by
  cases h with
  | atEnd => rfl
  | last hf => exact (List.takeWhile_eq_self_iff.mpr (by simpa using hf)).symm
  | upTo hf hd =>
    rw [List.takeWhile_append_of_pos (by simpa using hf),
      List.takeWhile_cons_of_neg (by simpa using hd), List.append_nil]

theorem find?_field {d : Byte} (hf : ∀ c ∈ f, p c = false) (hd : p d = true) :
    (f ++ d :: w).find? p = some d := by
  rw [List.find?_append, List.find?_eq_none.mpr (by simpa using hf), List.find?_cons_of_pos hd]
  rfl

theorem toNat_ne_zero {d : Byte} (hd : d ≠ 0) : d.toNat ≠ 0 :=
  fun h => hd (UInt8.toNat_inj.mp h)

/-- What the value returned says about the text. -/
theorem Scanned.ret_iff (h : Scanned p w r f w') :
    (r = -1 ↔ w = []) ∧ (r = 0 ↔ f ≠ [] ∧ w.find? p = none) ∧
      (r ≠ -1 → r ≠ 0 → ∃ d, w.find? p = some d ∧ r = d.toNat) := by
  cases h with
  | atEnd => simp
  | last hf hne =>
    have hnone : w.find? p = none := by simpa using hf
    simp [hne, hnone]
  | @upTo f d w' hf hd hd0 =>
    have hpos := toNat_ne_zero hd0
    rw [find?_field hf hd]
    refine ⟨iff_of_false (by omega) (by simp), iff_of_false (by omega) (by simp), ?_⟩
    exact fun _ _ => ⟨d, rfl, rfl⟩

/-- A call at the end of the text leaves nothing, and one at a delimiter what is behind it. -/
theorem Scanned.text_eq (h : Scanned p w r f w') :
    (r ≤ 0 → w = f) ∧ (0 < r → w = f ++ UInt8.ofNat r.toNat :: w') := by
  cases h with
  | atEnd => simp
  | last => simp
  | @upTo f d w' hf hd hd0 =>
    have hpos := toNat_ne_zero hd0
    exact ⟨fun hle => absurd hle (by omega), fun _ => by simp⟩

/-- The field read is a field of the text, and so are those of what is left. -/
theorem Scanned.fits {n : ℕ} (hn : 0 < n) (h : Scanned p w r f w')
    (hfit : ∀ g ∈ w.splitOnP p, g.length < n) :
    f.length < n ∧ ∀ g ∈ w'.splitOnP p, g.length < n := by
  have hnil : ∀ g ∈ ([] : List Byte).splitOnP p, g.length < n := by simpa using hn
  cases h with
  | atEnd => exact ⟨hn, hnil⟩
  | last hf =>
    rw [List.splitOnP_eq_singleton hf] at hfit
    exact ⟨hfit _ List.mem_cons_self, hnil⟩
  | upTo hf hd =>
    rw [List.splitOnP_append_cons_of_forall_mem hf _ hd] at hfit
    exact List.forall_mem_cons.mp hfit

end Scanned

/-! ## The loop -/

/-- The loop does not write behind the last position of its buffer. -/
theorem tokenLoop_frame {plim j : ℕ} (hj : plim < j) {s : List Byte} (hs : 0 ∉ s) {b : ℕ → Byte}
    {p : ℕ} (hp : p ≤ plim) : (tokenLoop loc plim delims s hs b p).buf.get j = b j := by
  have hne : j ≠ p := by omega
  induction s generalizing b p with
  | nil => simp [tokenLoop, endToken, Function.update_of_ne hne]
  | cons c s ih =>
    cases hspace : loc.isspace c with
    | true =>
      rw [tokenLoop_space hs hspace]
      exact ih _ hp hne
    | false =>
      cases hdelim : delims.has c with
      | true =>
        rw [tokenLoop_delim hs hspace hdelim]
        simp [endToken, Function.update_of_ne hne]
      | false =>
        have hp' : (if p < plim then p + 1 else p) ≤ plim := by
          split <;> omega
        rw [tokenLoop_char hs hspace hdelim, ih _ hp' (by omega), Function.update_of_ne hne]

/-- The pointer moves over a character that ends no field. -/
theorem Past.cons {c d : Byte} {s rest : List Byte}
    (hc : loc.isspace c = true ∨ delims.has c = false) (h : Past loc delims s d rest) :
    Past loc delims (c :: s) d rest := by
  obtain ⟨read, rfl, hread⟩ := h
  exact ⟨c :: read, rfl, List.forall_mem_cons.mpr ⟨hc, hread⟩⟩

/-- The loop leaves the pointer at the NUL, or behind the first delimiter that is no space. -/
theorem tokenLoop_rest {plim : ℕ} {s : List Byte} (hs : 0 ∉ s) {b : ℕ → Byte} {p : ℕ} :
    ((s.filter (!loc.isspace ·)).find? delims.has = none ∧
        (tokenLoop loc plim delims s hs b p).rest.bytes = []) ∨
      ∃ d, (s.filter (!loc.isspace ·)).find? delims.has = some d ∧
        Past loc delims s d (tokenLoop loc plim delims s hs b p).rest.bytes := by
  induction s generalizing b p with
  | nil => exact Or.inl ⟨rfl, rfl⟩
  | cons c s ih =>
    obtain ⟨hc, hs'⟩ := notMem_of_cons hs
    cases hspace : loc.isspace c with
    | true =>
      rw [tokenLoop_space hs hspace, List.filter_cons_of_neg (by simp [hspace])]
      refine (ih hs').imp_right ?_
      rintro ⟨d, hd, hpast⟩
      exact ⟨d, hd, hpast.cons (Or.inl hspace)⟩
    | false =>
      rw [List.filter_cons_of_pos (by simp [hspace])]
      cases hdelim : delims.has c with
      | true =>
        rw [tokenLoop_delim hs hspace hdelim]
        exact Or.inr ⟨c, List.find?_cons_of_pos hdelim, [], rfl, by simp⟩
      | false =>
        rw [tokenLoop_char hs hspace hdelim, List.find?_cons_of_neg (by simp [hdelim])]
        refine (ih hs').imp_right ?_
        rintro ⟨d, hd, hpast⟩
        exact ⟨d, hd, hpast.cons (Or.inr hdelim)⟩

/-! ## One call -/

theorem text_eq_nil_iff {s : CString} : s.text loc = [] ↔ ∀ c ∈ s.bytes, loc.isspace c = true := by
  simp [CString.text]

theorem length_copyCString (b : Buffer) : (copyCString b).bytes.length = strlen b := by
  simp [copyCString]

theorem getToken_rest (loc : Locale) (delims : CString) (b : ℕ → Byte) (blen : ℕ) (s : CString) :
    (nextDelim loc delims s = none ∧ (getToken loc b blen s delims).rest.bytes = []) ∨
      ∃ d, nextDelim loc delims s = some d ∧
        Past loc delims s.bytes d (getToken loc b blen s delims).rest.bytes :=
  tokenLoop_rest s.nul_notMem

/-- **One call** of `getToken`. -/
theorem getToken_tokenized (loc : Locale) (delims : CString) {blen : ℕ} (hlen : 2 ≤ blen)
    (b : ℕ → Byte) (s : CString) :
    Tokenized loc delims blen b s (getToken loc b blen s delims) := by
  obtain ⟨f, hscan, hcopy⟩ := getToken_spec loc b hlen s delims
  have hfield : f = nextField loc delims s := hscan.field_eq
  obtain ⟨hneg, hzero, hdelim⟩ := hscan.ret_iff
  rw [hfield] at hcopy hzero
  refine ⟨?_, ?_, hcopy, hneg.trans text_eq_nil_iff, hzero, hdelim, ?_, ?_⟩
  · intro j hj
    exact tokenLoop_frame (by omega) s.nul_notMem (Nat.zero_le _)
  · rw [← length_copyCString, hcopy, List.length_take]
    omega
  · intro hnone
    rcases getToken_rest loc delims b blen s with ⟨-, hrest⟩ | ⟨d, hd, -⟩
    · exact hrest
    · rw [hnone] at hd
      cases hd
  · intro d hd
    rcases getToken_rest loc delims b blen s with ⟨hnone, -⟩ | ⟨d', hd', hpast⟩
    · rw [hnone] at hd
      cases hd
    · obtain rfl : d' = d := Option.some.inj (hd'.symm.trans hd)
      exact hpast

/-! ## Repeated calls -/

/-- The tokens of a string, each with the value returned with it, until `-1` or `0`. -/
def tokens (loc : Locale) (delims : CString) (blen : ℕ) (b : ℕ → Byte) (s : CString) :
    List (CString × ℤ) :=
  let t := getToken loc b blen s delims
  if hneg : t.ret < 0 then []
  else if hzero : t.ret = 0 then [(copyCString t.buf, 0)]
  else
    have : t.rest.bytes.length < s.bytes.length := length_rest_lt (show 0 < t.ret by omega)
    (copyCString t.buf, t.ret) :: tokens loc delims blen t.buf.get t.rest
termination_by s.bytes.length

/-- A token with its delimiter. -/
def withDelim (t : CString × ℤ) : List Byte :=
  t.1.bytes ++ if t.2 = 0 then [] else [UInt8.ofNat t.2.toNat]

/-- One of the calls: if every field fits into the buffer, the token is the whole field. -/
theorem scanned_of_fits {blen : ℕ} (hlen : 2 ≤ blen) {b : ℕ → Byte} {s : CString}
    (hfit : ∀ f ∈ (s.text loc).splitOnP delims.has, f.length < blen) {t : Token}
    (ht : getToken loc b blen s delims = t) :
    Scanned delims.has (s.text loc) t.ret (copyCString t.buf).bytes (t.rest.text loc) ∧
      ∀ f ∈ (t.rest.text loc).splitOnP delims.has, f.length < blen := by
  obtain ⟨f, hscan, hcopy⟩ := getToken_spec loc b hlen s delims
  rw [ht] at hscan hcopy
  obtain ⟨hf, hrest⟩ := hscan.fits (by omega) hfit
  rw [hcopy, List.take_of_length_le (by omega)]
  exact ⟨hscan, hrest⟩

/-- **Nothing is lost**, if every field fits into the buffer. -/
theorem flatMap_tokens {blen : ℕ} (hlen : 2 ≤ blen) (b : ℕ → Byte) (s : CString)
    (hfit : ∀ f ∈ (s.text loc).splitOnP delims.has, f.length < blen) :
    (tokens loc delims blen b s).flatMap withDelim = s.text loc := by
  fun_induction tokens loc delims blen b s with
  | case1 b s t hneg =>
    obtain ⟨hscan, -⟩ := scanned_of_fits hlen hfit (t := t) rfl
    obtain ⟨hnil, -, hdelim⟩ := hscan.ret_iff
    have hret : t.ret = -1 := by
      by_contra hne
      obtain ⟨d, -, hd⟩ := hdelim hne (by omega)
      omega
    rw [hnil.mp hret]
    rfl
  | case2 b s t hneg hzero =>
    obtain ⟨hscan, -⟩ := scanned_of_fits hlen hfit (t := t) rfl
    rw [hscan.text_eq.1 (by omega), List.flatMap_singleton, withDelim]
    simp
  | case3 b s t hneg hzero hlt ih =>
    obtain ⟨hscan, hrest⟩ := scanned_of_fits hlen hfit (t := t) rfl
    rw [hscan.text_eq.2 (by omega), List.flatMap_cons, ih hrest, withDelim, if_neg hzero]
    simp

/-- **`getToken` splits losslessly and within its buffer.** -/
theorem getToken_lossless (loc : Locale) (delims : CString) (blen : ℕ) (hlen : 2 ≤ blen)
    (b : ℕ → Byte) (s : CString) :
    Tokenized loc delims blen b s (getToken loc b blen s delims) ∧
      ((∀ f ∈ (s.text loc).splitOnP delims.has, f.length < blen) →
        (tokens loc delims blen b s).flatMap withDelim = s.text loc) :=
  ⟨getToken_tokenized loc delims hlen b s, flatMap_tokens hlen b s⟩

/-- The string `"ab, c"`, and a buffer of three characters. -/
theorem getToken_lossless_three :
    (tokens Locale.C defaultDelims 3 (fun _ => 0)
      ⟨[0x61, 0x62, 0x2c, 0x20, 0x63], by decide⟩).flatMap withDelim = [0x61, 0x62, 0x2c, 0x63] :=
  (getToken_lossless Locale.C defaultDelims 3 (by decide) (fun _ => 0)
    ⟨[0x61, 0x62, 0x2c, 0x20, 0x63], by decide⟩).2 (by decide)

end CmdLine

end DBUtl
