import DBUtl.CmdLine
import DBUtl.Lib.Fields
import DBUtl.Lib.Store
import Mathlib.Tactic.SplitIfs

/-!
# The parsers read the fields of their argument

The text of an argument is what is left of it without the spaces. `Scanned` says all that one
call of `getToken` can do to a text: it returns the first field and what ended it, and leaves the
rest. The three array functions are loops over `getToken`; what a loop returns is read off the
fields of the text by induction along the loop.
-/

namespace DBUtl

namespace CmdLine

/-- The characters of a string that are no spaces. -/
def CString.text (loc : Locale) (s : CString) : List Byte := s.bytes.filter (!loc.isspace ·)

def CString.has (s : CString) (c : Byte) : Bool := c ∈ s.bytes

theorem CString.strchr_eq (s : CString) {c : Byte} (hc : c ≠ 0) : strchr s c = s.has c := by
  simp [strchr, CString.has, hc]

/-! ## The buffer -/

/-- The buffer starts with `l`. -/
def Holds (b : ℕ → Byte) (l : List Byte) : Prop := ∀ (k : ℕ) (h : k < l.length), b k = l[k]

/-- A buffer that starts with `l` and a NUL after it holds the string `l`. -/
theorem Holds.copyCString_eq {b : Buffer} {l : List Byte} (h : Holds b.get l)
    (hnul : b.get l.length = 0) (hl : 0 ∉ l) : (copyCString b).bytes = l := by
  have hlen : strlen b = l.length := by
    refine (Nat.find_eq_iff b.nul).2 ⟨hnul, fun k hk h0 => hl ?_⟩
    rw [← h0, h k hk]
    exact List.getElem_mem hk
  refine List.ext_getElem (by simp [copyCString, hlen]) fun k _ hk => ?_
  simpa [copyCString] using h k hk

theorem Holds.update {b : ℕ → Byte} {l : List Byte} (h : Holds b l) (x : Byte) :
    Holds (Function.update b l.length x) l := by
  intro k hk
  rw [Function.update_of_ne hk.ne]
  exact h k hk

/-- One more character goes to the end of the buffer, or is lost when the buffer is full. -/
theorem Holds.push {b : ℕ → Byte} {pre : List Byte} {plim : ℕ} (h : Holds b (pre.take plim))
    (c : Byte) :
    Holds (Function.update b (pre.take plim).length c) ((pre ++ [c]).take plim) ∧
      (if (pre.take plim).length < plim then (pre.take plim).length + 1
        else (pre.take plim).length) = ((pre ++ [c]).take plim).length := by
  by_cases hlt : pre.length < plim
  · have htake : (pre ++ [c]).take plim = pre ++ [c] :=
      List.take_of_length_le (by simpa using Nat.succ_le_of_lt hlt)
    rw [List.take_of_length_le hlt.le] at h ⊢
    rw [htake, if_pos hlt]
    refine ⟨fun k hk => ?_, by simp⟩
    rcases Nat.lt_or_ge k pre.length with hk' | hk'
    · rw [Function.update_of_ne hk'.ne, h k hk', List.getElem_append_left hk']
    · obtain rfl : k = pre.length := by simp at hk; omega
      simp
  · have htake : (pre ++ [c]).take plim = pre.take plim := by
      rw [List.take_append_of_le_length (not_lt.1 hlt)]
    have hlen : (pre.take plim).length = plim := List.length_take_of_le (not_lt.1 hlt)
    rw [htake, if_neg (by omega)]
    exact ⟨h.update c, rfl⟩

/-- The end of the loop leaves the string in the buffer that was there. -/
theorem Holds.copyCString_endToken {b : ℕ → Byte} {l : List Byte} (h : Holds b l) (hl : 0 ∉ l)
    (c x : Byte) (r : CString) :
    (copyCString (endToken c r (Function.update b l.length x) l.length).buf).bytes = l :=
  ((h.update x).update 0).copyCString_eq (Function.update_self _ _ _) hl

/-! ## One round of the loop -/

theorem notMem_of_cons {c : Byte} {s : List Byte} (hs : 0 ∉ c :: s) : c ≠ 0 ∧ 0 ∉ s :=
  ⟨fun h => hs (h ▸ List.mem_cons_self), fun h => hs (List.mem_cons_of_mem c h)⟩

section Round

variable {loc : Locale} {plim : ℕ} {delims : CString} {c : Byte} {s : List Byte} (hs : 0 ∉ c :: s)
  {b : ℕ → Byte} {p : ℕ}

theorem tokenLoop_space (hspace : loc.isspace c = true) :
    tokenLoop loc plim delims (c :: s) hs b p =
      tokenLoop loc plim delims s (notMem_of_cons hs).2 b p := if_pos hspace

theorem tokenLoop_delim (hspace : loc.isspace c = false) (hdelim : delims.has c = true) :
    tokenLoop loc plim delims (c :: s) hs b p =
      endToken c ⟨s, (notMem_of_cons hs).2⟩ (Function.update b p c) p := by
  have hfound : strchr delims c = true := by rwa [delims.strchr_eq (notMem_of_cons hs).1]
  rw [tokenLoop, if_neg (by simp [hspace]), if_pos hfound]

theorem tokenLoop_char (hspace : loc.isspace c = false) (hdelim : delims.has c = false) :
    tokenLoop loc plim delims (c :: s) hs b p =
      tokenLoop loc plim delims s (notMem_of_cons hs).2 (Function.update b p c)
        (if p < plim then p + 1 else p) := by
  have hfound : strchr delims c = false := by rwa [delims.strchr_eq (notMem_of_cons hs).1]
  rw [tokenLoop, if_neg (by simp [hspace]), if_neg (by simp [hfound])]

end Round

/-! ## One call of `getToken` -/

/-- What a call can do to a text with delimiters `p`: the value it returns, the field it reads,
and the text it leaves. -/
inductive Scanned (p : Byte → Bool) : List Byte → ℤ → List Byte → List Byte → Prop
  | atEnd : Scanned p [] (-1) [] []
  | last {f : List Byte} : (∀ c ∈ f, p c = false) → f ≠ [] → Scanned p f 0 f []
  | upTo {f : List Byte} {d : Byte} {w : List Byte} :
      (∀ c ∈ f, p c = false) → p d = true → d ≠ 0 → Scanned p (f ++ d :: w) d.toNat f w

/-- **The loop.** It is entered with the characters `pre` of the field read, of which the buffer
holds as many as it has room for; it goes on to the end of that field. -/
theorem tokenLoop_spec {loc : Locale} {plim : ℕ} {delims : CString} (hlim : 0 < plim)
    {s : List Byte} (hs : 0 ∉ s) {b : ℕ → Byte} {pre : List Byte} {p : ℕ}
    (hpre : ∀ c ∈ pre, delims.has c = false ∧ c ≠ 0) (hb : Holds b (pre.take plim))
    (hp : (pre.take plim).length = p) :
    ∃ f, Scanned delims.has (pre ++ s.filter (!loc.isspace ·))
        (tokenLoop loc plim delims s hs b p).ret f
        ((tokenLoop loc plim delims s hs b p).rest.text loc) ∧
      (copyCString (tokenLoop loc plim delims s hs b p).buf).bytes = f.take plim := by
  have h0 : 0 ∉ pre.take plim := fun h => (hpre 0 (List.mem_of_mem_take h)).2 rfl
  subst hp
  induction s generalizing b pre with
  | nil =>
    refine ⟨pre, ?_, hb.copyCString_endToken h0 0 0 ⟨[], hs⟩⟩
    rw [List.filter_nil, List.append_nil]
    by_cases hnil : pre = []
    · have hret : (tokenLoop loc plim delims [] hs b (pre.take plim).length).ret = -1 := by
        simp [tokenLoop, endToken, hnil]
      rw [hret, hnil]
      exact Scanned.atEnd
    · have hret : (tokenLoop loc plim delims [] hs b (pre.take plim).length).ret = 0 := by
        simp [tokenLoop, endToken, hlim.ne', hnil]
      rw [hret]
      exact Scanned.last (fun c hc => (hpre c hc).1) hnil
  | cons c s ih =>
    obtain ⟨hc, hs'⟩ := notMem_of_cons hs
    cases hspace : loc.isspace c with
    | true =>
      rw [tokenLoop_space hs hspace, List.filter_cons_of_neg (by simp [hspace])]
      exact ih hs' hpre hb h0
    | false =>
      rw [List.filter_cons_of_pos (by simp [hspace])]
      cases hdelim : delims.has c with
      | true =>
        rw [tokenLoop_delim hs hspace hdelim]
        refine ⟨pre, ?_, hb.copyCString_endToken h0 c c ⟨s, hs'⟩⟩
        rw [endToken, if_neg (fun h => hc h.1)]
        exact Scanned.upTo (fun c hc => (hpre c hc).1) hdelim hc
      | false =>
        -- The character goes on the field, and into the buffer if there is room.
        obtain ⟨hpush, hlen⟩ := hb.push c
        rw [tokenLoop_char hs hspace hdelim, hlen, ← List.singleton_append, ← List.append_assoc]
        have hpre' : ∀ x ∈ pre ++ [c], delims.has x = false ∧ x ≠ 0 := by
          intro x hx
          rcases List.mem_append.1 hx with hx | hx
          · exact hpre x hx
          · obtain rfl := List.mem_singleton.1 hx
            exact ⟨hdelim, hc⟩
        exact ih hs' hpre' hpush fun h => (hpre' 0 (List.mem_of_mem_take h)).2 rfl

/-- **`getToken`** reads the first field of the text. Its buffer gets as much of the field as it
has room for. -/
theorem getToken_spec (loc : Locale) (b : ℕ → Byte) {blen : ℕ} (hlen : 2 ≤ blen)
    (s delims : CString) :
    ∃ f, Scanned delims.has (s.text loc) (getToken loc b blen s delims).ret f
        ((getToken loc b blen s delims).rest.text loc) ∧
      (copyCString (getToken loc b blen s delims).buf).bytes = f.take (blen - 1) :=
  tokenLoop_spec (p := 0) (Nat.sub_pos_of_lt hlen) s.nul_notMem
    (fun c hc => absurd hc List.not_mem_nil) (fun k hk => absurd hk (by simp)) (by simp)

/-! ## The fields of an argument -/

/-- The delimiters of a composite argument, `','` and `':'`. -/
def isDelim (c : Byte) : Bool := c = 0x2c ∨ c = 0x3a

theorem has_defaultDelims : defaultDelims.has = isDelim := by
  funext c
  simp [CString.has, defaultDelims, isDelim]

/-- The fields of an argument, each with the delimiter after it; after the last may stand the
NUL. -/
def argFields (loc : Locale) (s : CString) : List (List Byte × Byte) :=
  fields isDelim 0 (s.text loc)

/-- What the token buffer has room for. -/
def cut (f : List Byte) : List Byte := f.take 99

/-- **A token is a field.** A call finds no field, or the last one, or one that a delimiter
ends. -/
theorem token_cases (loc : Locale) (b : ℕ → Byte) (s : CString) :
    ((getToken loc b tokBufSize s).ret = -1 ∧ argFields loc s = []) ∨
    (∃ f, (getToken loc b tokBufSize s).ret = 0 ∧ argFields loc s = [(f, 0)] ∧
      (copyCString (getToken loc b tokBufSize s).buf).bytes = cut f) ∨
    ∃ f d, (getToken loc b tokBufSize s).ret = (d.toNat : ℤ) ∧ d ≠ 0 ∧
      argFields loc s = (f, d) :: argFields loc (getToken loc b tokBufSize s).rest ∧
      (copyCString (getToken loc b tokBufSize s).buf).bytes = cut f := by
  obtain ⟨f, hscan, hcopy⟩ :=
    getToken_spec loc b (show 2 ≤ tokBufSize by decide) s defaultDelims
  rw [has_defaultDelims] at hscan
  simp only [argFields]
  generalize s.text loc = w at hscan ⊢
  generalize (getToken loc b tokBufSize s).ret = r at hscan ⊢
  generalize (getToken loc b tokBufSize s).rest.text loc = w' at hscan ⊢
  cases hscan with
  | atEnd => exact Or.inl ⟨rfl, by simp [fields_of_forall]⟩
  | last hf hne => exact Or.inr (Or.inl ⟨f, rfl, by rw [fields_of_forall hf, if_neg hne], hcopy⟩)
  | upTo hf hd hd0 => exact Or.inr (Or.inr ⟨f, _, rfl, hd0, fields_append hf hd w', hcopy⟩)

section Token

variable {loc : Locale} {b : ℕ → Byte} {s : CString}

/-! The same, by the branches the callers take. -/

theorem fields_of_neg (h : (getToken loc b tokBufSize s).ret < 0) : argFields loc s = [] := by
  rcases token_cases loc b s with ⟨-, hF⟩ | ⟨f, hret, -⟩ | ⟨f, d, hret, -⟩
  · exact hF
  · omega
  · omega

theorem length_fields_pos (h : ¬ (getToken loc b tokBufSize s).ret < 0) :
    0 < (argFields loc s).length := by
  rcases token_cases loc b s with ⟨hret, -⟩ | ⟨f, -, hF, -⟩ | ⟨f, d, -, -, hF, -⟩
  · omega
  · simp [hF]
  · simp [hF]

theorem fields_of_zero (h : (getToken loc b tokBufSize s).ret = 0) :
    ∃ f, argFields loc s = [(f, 0)] ∧
      (copyCString (getToken loc b tokBufSize s).buf).bytes = cut f := by
  rcases token_cases loc b s with ⟨hret, -⟩ | ⟨f, -, hF, hcopy⟩ | ⟨f, d, hret, hd, -⟩
  · omega
  · exact ⟨f, hF, hcopy⟩
  · have h0 : d.toNat = (0 : Byte).toNat := Int.ofNat_inj.1 (hret.symm.trans h)
    exact absurd (UInt8.toNat_inj.1 h0) hd

theorem fields_of_pos (h : ¬ (getToken loc b tokBufSize s).ret < 0)
    (h0 : ¬ (getToken loc b tokBufSize s).ret = 0) :
    ∃ f d, (getToken loc b tokBufSize s).ret = (d.toNat : ℤ) ∧
      argFields loc s = (f, d) :: argFields loc (getToken loc b tokBufSize s).rest ∧
      (copyCString (getToken loc b tokBufSize s).buf).bytes = cut f := by
  rcases token_cases loc b s with ⟨hret, -⟩ | ⟨f, hret, -⟩ | ⟨f, d, hret, -, hF, hcopy⟩
  · omega
  · omega
  · exact ⟨f, d, hret, hF, hcopy⟩

end Token

/-- What the functions return for `n` values, or `n` vectors. -/
def counted (sz : ℤ) (n : ℕ) : Except String ℤ := if n ≤ sz.toNat then .ok n else .error tooMany

theorem counted_of_le {sz : ℤ} {n : ℕ} (h : n ≤ sz.toNat) : counted sz n = .ok n := if_pos h

theorem counted_of_lt {sz : ℤ} {n : ℕ} (h : sz.toNat < n) : counted sz n = .error tooMany :=
  if_neg (not_le.2 h)

/-! ## Arrays of values -/

section Arrays

variable {α R : Type*}

/-- **The loop** stores the fields while there is room, and counts them. -/
theorem arrayLoop_spec (loc : Locale) (conv : Buffer → α) (sz : ℤ) (i : ℕ) (b : ℕ → Byte)
    (s : CString) (a : ℕ → α) (hi : i ≤ sz.toNat) :
    ∃ bufs : List Buffer,
      bufs.map (fun t => (copyCString t).bytes) =
        ((argFields loc s).take (sz.toNat - i)).map (fun f => cut f.1) ∧
      arrayLoop loc conv sz i b s a =
        (counted sz (i + (argFields loc s).length), storeFrom i (bufs.map conv) a) := by
  fun_induction arrayLoop loc conv sz i b s a with
  | case1 i b s a t hneg =>
    have hF := fields_of_neg hneg
    exact ⟨[], by simp [hF], by rw [hF, List.length_nil, Nat.add_zero, counted_of_le hi]; rfl⟩
  | case2 i b s a t hneg hsz =>
    have hF := length_fields_pos hneg
    have hfull : sz.toNat - i = 0 := by omega
    exact ⟨[], by simp [hfull], by rw [counted_of_lt (by omega)]; rfl⟩
  | case3 i b s a t hneg hsz a' hzero =>
    obtain ⟨f, hF, hcopy⟩ := fields_of_zero hzero
    have hroom : sz.toNat - i = sz.toNat - (i + 1) + 1 := by omega
    refine ⟨[t.buf], ?_, ?_⟩
    · rw [hF, hroom]
      simpa using hcopy
    · rw [hF, List.length_singleton, counted_of_le (by omega)]
      rfl
  | case4 i b s a t hneg hsz a' hzero hlt ih =>
    obtain ⟨f, d, -, hF, hcopy⟩ := fields_of_pos hneg hzero
    obtain ⟨bufs, htexts, hloop⟩ := ih (by omega)
    have hroom : sz.toNat - i = sz.toNat - (i + 1) + 1 := by omega
    refine ⟨t.buf :: bufs, ?_, ?_⟩
    · rw [hF, hroom, List.take_succ_cons, List.map_cons, List.map_cons, hcopy, htexts]
    · rw [hloop, hF, List.length_cons, List.map_cons, storeFrom, Nat.add_right_comm, Nat.add_assoc]

/-- The parts of an argument between the delimiters, the last one only if it is not empty. -/
def fieldTexts (loc : Locale) (s : CString) : List (List Byte) :=
  dropLastIf List.isEmpty ((s.text loc).splitOnP isDelim)

theorem map_fst_argFields (loc : Locale) (s : CString) :
    (argFields loc s).map Prod.fst = fieldTexts loc s := map_fst_fields _

theorem length_fieldTexts (loc : Locale) (s : CString) :
    (fieldTexts loc s).length = (argFields loc s).length := by
  rw [← map_fst_argFields, List.length_map]

/-- `a'` is the array `a` after the first `n` fields have been stored in it: slot `i` is in the
relation `P` to field `i`, cut to its first 99 characters, and nothing else has changed. -/
structure Stored (P : α → List Byte → Prop) (F : List (List Byte)) (n : ℕ) (a a' : ℕ → α) :
    Prop where
  slot : ∀ (i : ℕ) (h : i < F.length), i < n → P (a' i) (F[i].take 99)
  untouched : ∀ i, n ≤ i → a' i = a i

/-- **A list of values.** The fields are stored while there is room; if there is room for all,
they are counted, else the function throws. -/
theorem getArrayOf_spec (loc : Locale) (conv : Buffer → α) {P : α → List Byte → Prop}
    (hconv : ∀ t, P (conv t) (copyCString t).bytes) (tokBuf : ℕ → Byte) (s : CString) (sz : ℕ)
    (a : ℕ → α) :
    ∃ a', getArrayOf loc conv tokBuf a sz (some s) = (counted sz (fieldTexts loc s).length, a') ∧
      Stored P (fieldTexts loc s) (min sz (fieldTexts loc s).length) a a' := by
  obtain ⟨bufs, htexts, hloop⟩ := arrayLoop_spec loc conv sz 0 tokBuf s a (Nat.zero_le _)
  have hF := length_fieldTexts loc s
  have hlen : bufs.length = min sz (fieldTexts loc s).length := by
    simpa [hF] using congrArg List.length htexts
  refine ⟨storeFrom 0 (bufs.map conv) a, ?_, ?_, ?_⟩
  · rw [getArrayOf, hloop, hF, Nat.zero_add]
  · intro i hi hin
    have hbuf : i < bufs.length := hlen ▸ hin
    have hsz : i < sz := by omega
    have htext : (copyCString bufs[i]).bytes = (fieldTexts loc s)[i].take 99 := by
      have h := congrArg (·[i]?) htexts
      simpa [← map_fst_argFields, cut, hbuf, hF ▸ hi, hsz] using h
    have hstore := storeFrom_of_lt 0 (show i < (bufs.map conv).length by simpa using hbuf) a
    rw [Nat.zero_add, List.getElem_map] at hstore
    rw [hstore, ← htext]
    exact hconv bufs[i]
  · intro i hi
    exact storeFrom_of_notMem (Or.inr (by rw [List.length_map, hlen]; omega)) a

theorem getArrayOfStrings_spec (loc : Locale) (tokBuf : ℕ → Byte) (s : CString) (sz : ℕ)
    (a : ℕ → CString) :
    ∃ a', getArrayOfStrings loc tokBuf a sz (some s) =
        (counted sz (fieldTexts loc s).length, a') ∧
      Stored (fun x t => x.bytes = t) (fieldTexts loc s) (min sz (fieldTexts loc s).length) a a' :=
  getArrayOf_spec loc copyCString (fun _ => rfl) tokBuf s sz a

theorem getArrayOfDoubles_spec (loc : Locale) (strtod : List Byte → R) (tokBuf : ℕ → Byte)
    (s : CString) (sz : ℕ) (d : ℕ → R) :
    ∃ d', getArrayOfDoubles loc strtod tokBuf d sz (some s) =
        (counted sz (fieldTexts loc s).length, d') ∧
      Stored (fun x t => x = strtod t) (fieldTexts loc s) (min sz (fieldTexts loc s).length) d d' :=
  getArrayOf_spec loc (fun b => strtod (copyCString b).bytes) (fun _ => rfl) tokBuf s sz d

/-- **`getArrayOfStrings` and `getArrayOfDoubles` accept exactly their list format.** -/
theorem getArrayOf_fieldTexts (loc : Locale) (strtod : List Byte → R) (tokBuf : ℕ → Byte)
    (s : CString) (sz : ℕ) (a : ℕ → CString) (d : ℕ → R) :
    ((fieldTexts loc s).length ≤ sz →
      (∃ a', getArrayOfStrings loc tokBuf a sz (some s) = (.ok (fieldTexts loc s).length, a') ∧
        Stored (fun x t => x.bytes = t) (fieldTexts loc s) (fieldTexts loc s).length a a') ∧
      ∃ d', getArrayOfDoubles loc strtod tokBuf d sz (some s) =
          (.ok (fieldTexts loc s).length, d') ∧
        Stored (fun x t => x = strtod t) (fieldTexts loc s) (fieldTexts loc s).length d d') ∧
    (sz < (fieldTexts loc s).length →
      (∃ a', getArrayOfStrings loc tokBuf a sz (some s) =
          (.error "Too many values in composite arg", a') ∧
        Stored (fun x t => x.bytes = t) (fieldTexts loc s) sz a a') ∧
      ∃ d', getArrayOfDoubles loc strtod tokBuf d sz (some s) =
          (.error "Too many values in composite arg", d') ∧
        Stored (fun x t => x = strtod t) (fieldTexts loc s) sz d d') := by
  obtain ⟨a', hstrings, ha⟩ := getArrayOfStrings_spec loc tokBuf s sz a
  obtain ⟨d', hdoubles, hd⟩ := getArrayOfDoubles_spec loc strtod tokBuf s sz d
  constructor
  · intro hle
    rw [counted_of_le (by simpa using hle)] at hstrings hdoubles
    rw [min_eq_right hle] at ha hd
    exact ⟨⟨a', hstrings, ha⟩, d', hdoubles, hd⟩
  · intro hlt
    rw [counted_of_lt (by simpa using hlt)] at hstrings hdoubles
    rw [min_eq_left hlt.le] at ha hd
    exact ⟨⟨a', hstrings, ha⟩, d', hdoubles, hd⟩

end Arrays

/-! ## Arrays of vectors of values -/

section Vectors

variable {R : Type*}

/-- The fields of an argument in groups, each up to a `':'`. -/
def groups (loc : Locale) (s : CString) : List (List (List Byte × Byte)) :=
  groupsOf (fun f => f.2 = 0x3a) (argFields loc s)

/-- The value that is read from a field. -/
def value (strtod : List Byte → R) (f : List Byte × Byte) : R := strtod (f.1.take 99)

/-- Append values to one vector of an array. -/
def appended (a : ℕ → List R) (i : ℕ) (xs : List R) : ℕ → List R :=
  Function.update a i (a i ++ xs)

theorem appended_nil (a : ℕ → List R) (i : ℕ) : appended a i [] = a := by
  simp [appended]

theorem appended_pushBack (a : ℕ → List R) (i : ℕ) (x : R) (xs : List R) :
    appended (pushBack a i x) i xs = appended a i (x :: xs) := by
  simp [appended, pushBack]

theorem appended_update_nil (a : ℕ → List R) (i : ℕ) (xs : List R) :
    appended (Function.update a i []) i xs = Function.update a i xs := by
  simp [appended]

/-- The array at the end of the inner loop, and the fields it has left. -/
def GroupExit.array : GroupExit R → ℕ → List R
  | .done a => a
  | .next _ _ a => a

def GroupExit.left (loc : Locale) : GroupExit R → List (List Byte × Byte)
  | .done _ => []
  | .next _ s _ => argFields loc s

theorem not_break {f : List Byte × Byte} {delim : ℤ} (hf : delim = f.2.toNat)
    (hdelim : ¬ delim = 0x3a) : decide (f.2 = 0x3a) = false := by
  rw [decide_eq_false_iff_not]
  intro h
  rw [h] at hf
  exact hdelim hf

/-- **The inner loop** reads the rest `g` of the group that `f` is the first field of. -/
theorem groupLoop_spec (loc : Locale) (strtod : List Byte → R) (i : ℕ) (delim : ℤ) (b : ℕ → Byte)
    (s : CString) (a : ℕ → List R) (f : List Byte × Byte) (hf : delim = f.2.toNat) :
    ∃ g, groupsOf (fun f => f.2 = 0x3a) (f :: argFields loc s) =
        (f :: g) :: groupsOf (fun f => f.2 = 0x3a)
          ((groupLoop loc strtod i delim b s a).left loc) ∧
      (groupLoop loc strtod i delim b s a).array = appended a i (g.map (value strtod)) := by
  fun_induction groupLoop loc strtod i delim b s a generalizing f with
  | case1 b s a =>
    have hbrk : f.2 = 0x3a := UInt8.toNat_inj.1 (Int.ofNat_inj.1 hf.symm)
    exact ⟨[], groupsOf_cons_of_break (Or.inl (by simp [hbrk])), (appended_nil a i).symm⟩
  | case2 delim b s a hdelim t hneg =>
    rw [fields_of_neg hneg]
    exact ⟨[], groupsOf_cons_of_break (Or.inr rfl), (appended_nil a i).symm⟩
  | case3 delim b s a hdelim t hneg a' hzero =>
    obtain ⟨f', hF, hcopy⟩ := fields_of_zero hzero
    rw [hF]
    refine ⟨[(f', 0)], groupsOf_cons_cons (not_break hf hdelim)
      (groupsOf_cons_of_break (Or.inr rfl)), ?_⟩
    simp [GroupExit.array, a', t, pushBack, appended, value, hcopy, cut]
  | case4 delim b s a hdelim t hneg a' hzero hlt ih =>
    obtain ⟨f', d, hret, hF, hcopy⟩ := fields_of_pos hneg hzero
    obtain ⟨g, hG, harray⟩ := ih (f', d) hret
    rw [hF]
    refine ⟨(f', d) :: g, groupsOf_cons_cons (not_break hf hdelim) hG, ?_⟩
    rw [harray, appended_pushBack, hcopy]
    rfl

/-- What a loop at index `i` returns that has `xs` still to store. -/
def storing {α : Type*} (sz : ℤ) (i : ℕ) (xs : List α) (a : ℕ → α) :
    Except String ℤ × (ℕ → α) :=
  (counted sz (i + xs.length), storeFrom i (xs.take (sz.toNat - i)) a)

section Storing

variable {α : Type*} {sz : ℤ} {i : ℕ} {xs : List α} {a : ℕ → α}

theorem storing_nil (hi : i ≤ sz.toNat) : storing sz i [] a = (.ok i, a) := by
  rw [storing, List.take_nil, List.length_nil, Nat.add_zero, counted_of_le hi]
  rfl

theorem storing_of_le (hxs : xs.length ≤ sz.toNat) :
    storing sz 0 xs a = (.ok xs.length, storeFrom 0 xs a) := by
  rw [storing, Nat.zero_add, counted_of_le hxs, Nat.sub_zero, List.take_of_length_le hxs]

theorem storing_full (hi : sz.toNat ≤ i) (hxs : xs ≠ []) :
    storing sz i xs a = (.error tooMany, a) := by
  have hpos := List.length_pos_of_ne_nil hxs
  rw [storing, counted_of_lt (by omega), Nat.sub_eq_zero_of_le hi, List.take_zero]
  rfl

/-- A loop that starts at the first index throws when it has more to store than there is room
for. -/
theorem storing_throws_iff :
    (storing sz 0 xs a).1 = .error tooMany ↔ sz.toNat < xs.length := by
  rw [storing, Nat.zero_add]
  rcases Nat.lt_or_ge sz.toNat xs.length with hlt | hle
  · simp [counted_of_lt hlt, hlt]
  · simp [counted_of_le hle, hle]

theorem storing_cons (hi : i < sz.toNat) (x : α) :
    storing sz i (x :: xs) a = storing sz (i + 1) xs (Function.update a i x) := by
  rw [storing, storing, show sz.toNat - i = sz.toNat - (i + 1) + 1 by omega, List.take_succ_cons,
    storeFrom, List.length_cons, Nat.add_right_comm, Nat.add_assoc]

end Storing

/-- The vectors that the groups of an argument are read into. -/
def vectors (loc : Locale) (strtod : List Byte → R) (s : CString) : List (List R) :=
  (groups loc s).map (List.map (value strtod))

/-- **One vector.** What stands in `a[i]` after the inner loop is the first group. -/
theorem first_vector (loc : Locale) (strtod : List Byte → R) (i : ℕ) {b : ℕ → Byte} {s : CString}
    (hneg : ¬ (getToken loc b tokBufSize s).ret < 0)
    (hzero : ¬ (getToken loc b tokBufSize s).ret = 0)
    (a : ℕ → List R) {e : GroupExit R}
    (he : groupLoop loc strtod i (getToken loc b tokBufSize s).ret
      (getToken loc b tokBufSize s).buf.get (getToken loc b tokBufSize s).rest
      (pushBack (Function.update a i []) i
        (strtod (copyCString (getToken loc b tokBufSize s).buf).bytes)) = e) :
    ∃ v, vectors loc strtod s =
        v :: (groupsOf (fun f => f.2 = 0x3a) (e.left loc)).map (List.map (value strtod)) ∧
      e.array = Function.update a i v := by
  obtain ⟨f, d, hret, hF, hcopy⟩ := fields_of_pos hneg hzero
  obtain ⟨g, hG, harray⟩ := groupLoop_spec loc strtod i _ _ _ _ (f, d) hret
  rw [he] at hG harray
  refine ⟨strtod (cut f) :: g.map (value strtod), ?_, ?_⟩
  · rw [vectors, groups, hF, hG]
    rfl
  · rw [harray, appended_pushBack, appended_update_nil, hcopy]

/-- **The outer loop** stores a vector for every group. -/
theorem vectorsLoop_spec (loc : Locale) (strtod : List Byte → R) (sz : ℤ) (i : ℕ) (b : ℕ → Byte)
    (s : CString) (a : ℕ → List R) (hi : i ≤ sz.toNat) :
    vectorsLoop loc strtod sz i b s a = storing sz i (vectors loc strtod s) a := by
  fun_induction vectorsLoop loc strtod sz i b s a with
  | case1 i b s a t hneg =>
    have hvs : vectors loc strtod s = [] := by
      simp [vectors, groups, groupsOf, fields_of_neg hneg]
    rw [hvs, storing_nil hi]
  | case2 i b s a t hneg hsz =>
    have hF := length_fields_pos hneg
    rw [storing_full (by omega)]
    simp [vectors, groups, groupsOf, List.ne_nil_of_length_pos hF]
  | case3 i b s a t hneg hsz a' hzero =>
    obtain ⟨f, hF, hcopy⟩ := fields_of_zero hzero
    have hvs : vectors loc strtod s = [[strtod (cut f)]] := by
      rw [vectors, groups, hF, groupsOf_cons_of_break (Or.inr rfl)]
      rfl
    rw [hvs, storing_cons (by omega), storing_nil (by omega), ← hcopy]
    simp [a', t, pushBack]
  | case4 i b s a t hneg hsz a' hzero a'' h =>
    obtain ⟨v, hvs, harray⟩ := first_vector loc strtod i hneg hzero a h
    have hdone : a'' = Function.update a i v := harray
    have hroom : i + 1 ≤ sz.toNat := by omega
    rw [hvs, storing_cons (by omega), hdone]
    exact (storing_nil hroom).symm
  | case5 i b s a t hneg hsz a' hzero b' s' a'' h hlt ih =>
    obtain ⟨v, hvs, harray⟩ := first_vector loc strtod i hneg hzero a h
    have hnext : a'' = Function.update a i v := harray
    rw [ih (by omega), hvs, storing_cons (by omega), hnext]
    rfl

/-- The vectors hold, one after the other, what the fields are read as. -/
theorem flatten_vectors (loc : Locale) (strtod : List Byte → R) (s : CString) :
    (vectors loc strtod s).flatten = (fieldTexts loc s).map fun f => strtod (f.take 99) := by
  rw [vectors, ← List.map_flatten, groups, flatten_groupsOf, ← map_fst_argFields, List.map_map]
  rfl

theorem length_take_vectors (loc : Locale) (strtod : List Byte → R) (s : CString) (q : ℕ) :
    ((vectors loc strtod s).take q).flatten.length = ((groups loc s).take q).flatten.length := by
  rw [vectors, ← List.map_take, ← List.map_flatten, List.length_map]

theorem getArrayOfVectorsOfDoubles_eq (loc : Locale) (strtod : List Byte → R) (tokBuf : ℕ → Byte)
    (s : CString) (a : ℕ → List R) (sz : ℤ) :
    getArrayOfVectorsOfDoubles loc strtod tokBuf a sz (some s) =
      storing sz 0 (vectors loc strtod s) a :=
  vectorsLoop_spec loc strtod sz 0 tokBuf s a (Nat.zero_le _)

/-- **`getArrayOfVectorsOfDoubles` returns the values of `getArrayOfDoubles`, in groups.** With
room for all groups, `a[0], …, a[r-1]` become the vectors of the groups, whatever they were, and
nothing else changes. The vectors are not empty, joined together they are the array
`getArrayOfDoubles` produces, and a new one starts at the value `k + 1` exactly when `':'` is the
delimiter between the values `k` and `k + 1`. The function throws exactly when there is no room
for all groups. -/
theorem getArrayOfVectorsOfDoubles_groups (loc : Locale) (strtod : List Byte → R) (s : CString) :
    ∃ vs : List (List R), vs.length = (groups loc s).length ∧
      (∀ (tokBuf : ℕ → Byte) (a : ℕ → List R) (sz : ℤ), (groups loc s).length ≤ sz →
        ∃ a', getArrayOfVectorsOfDoubles loc strtod tokBuf a sz (some s) = (.ok vs.length, a') ∧
          (∀ (i : ℕ) (h : i < vs.length), a' i = vs[i]) ∧ ∀ i, vs.length ≤ i → a' i = a i) ∧
      (∀ (tokBuf : ℕ → Byte) (d : ℕ → R) (sz : ℕ), vs.flatten.length ≤ sz →
        ∃ d', getArrayOfDoubles loc strtod tokBuf d sz (some s) = (.ok vs.flatten.length, d') ∧
          ∀ (i : ℕ) (h : i < vs.flatten.length), d' i = vs.flatten[i]) ∧
      (∀ v ∈ vs, v ≠ []) ∧
      (∀ (k : ℕ) (h : k + 1 < (argFields loc s).length),
        (∃ q < vs.length, (vs.take q).flatten.length = k + 1) ↔ (argFields loc s)[k].2 = 0x3a) ∧
      (∀ (tokBuf : ℕ → Byte) (a : ℕ → List R) (sz : ℕ),
        (getArrayOfVectorsOfDoubles loc strtod tokBuf a sz (some s)).1 =
            .error "Too many values in composite arg" ↔ sz < (groups loc s).length) ∧
      ∀ (tokBuf : ℕ → Byte) (a : ℕ → List R) (sz : ℤ), sz < 0 →
        ((getArrayOfVectorsOfDoubles loc strtod tokBuf a sz (some s)).1 =
            .error "Too many values in composite arg" ↔ 0 < (groups loc s).length) := by
  have hlen : (vectors loc strtod s).length = (groups loc s).length := List.length_map _
  have hthrow (tokBuf : ℕ → Byte) (a : ℕ → List R) (sz : ℤ) :
      (getArrayOfVectorsOfDoubles loc strtod tokBuf a sz (some s)).1 = .error tooMany ↔
        sz.toNat < (groups loc s).length := by
    rw [getArrayOfVectorsOfDoubles_eq, storing_throws_iff, hlen]
  refine ⟨vectors loc strtod s, hlen, ?_, ?_, ?_, ?_, ?_, ?_⟩
  · intro tokBuf a sz hsz
    have hroom : (vectors loc strtod s).length ≤ sz.toNat := by omega
    refine ⟨storeFrom 0 (vectors loc strtod s) a, ?_, fun i hi => ?_, fun i hi => ?_⟩
    · rw [getArrayOfVectorsOfDoubles_eq, storing_of_le hroom]
    · simpa using storeFrom_of_lt 0 hi a
    · exact storeFrom_of_notMem (Or.inr (by omega)) a
  · intro tokBuf d sz hsz
    rw [flatten_vectors, List.length_map] at hsz
    obtain ⟨d', hdoubles, hstored⟩ := getArrayOfDoubles_spec loc strtod tokBuf s sz d
    rw [counted_of_le (by simpa using hsz)] at hdoubles
    rw [min_eq_right hsz] at hstored
    refine ⟨d', ?_, fun i hi => ?_⟩
    · rw [flatten_vectors, List.length_map]
      exact hdoubles
    · simp only [flatten_vectors, List.length_map] at hi
      simpa [flatten_vectors] using hstored.slot i hi hi
  · intro v hv
    obtain ⟨g, hg, rfl⟩ := List.mem_map.1 hv
    simpa using ne_nil_of_mem_groupsOf hg
  · intro k hk
    have hbegins : (∃ q < (groups loc s).length, ((groups loc s).take q).flatten.length = k + 1) ↔
        decide ((argFields loc s)[k].2 = 0x3a) = true := group_begins_iff hk
    simpa only [length_take_vectors, hlen, decide_eq_true_iff] using hbegins
  · intro tokBuf a sz
    exact (hthrow tokBuf a sz).trans (by rw [Int.toNat_natCast])
  · intro tokBuf a sz hneg
    exact (hthrow tokBuf a sz).trans (by rw [Int.toNat_of_nonpos (Int.le_of_lt hneg)])

-- `" a,:c , "` holds the vectors `a` and the empty value, and `c`.
example : groups .C ⟨[0x20, 0x61, 0x2c, 0x3a, 0x63, 0x20, 0x2c, 0x20], by decide⟩ =
    [[([0x61], 0x2c), ([], 0x3a)], [([0x63], 0x2c)]] := by decide

end Vectors

end CmdLine

end DBUtl
