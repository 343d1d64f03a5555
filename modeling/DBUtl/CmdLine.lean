import Mathlib.Data.Nat.Find
import Mathlib.Logic.Function.Basic

/-!
# Parsing composite arguments

The tokenizer `getToken` of `CmdLine.cpp`, and the three functions that read a list of values
off a command line argument with it.

A string that is read is given by the bytes before its NUL, and a pointer into it by what is left
to read. Memory that is written to is a function from offsets, so that a write anywhere is
visible; a token is read back from it up to the first NUL. An array of the caller is a function
from indices as well. A function that throws returns the message, together with the array as it
has left it.
-/

namespace DBUtl

namespace CmdLine

abbrev Byte := UInt8

/-- What stands before the NUL of a string. -/
structure CString where
  bytes : List Byte
  nul_notMem : 0 ∉ bytes
  deriving DecidableEq

/-- The predicate `isspace` of a locale. -/
structure Locale where
  isspace : Byte → Bool
  isspace_nul : isspace 0 = false

/-- The "C" locale, the one a program starts in. -/
def Locale.C : Locale where
  isspace c := c = 0x20 ∨ (0x09 ≤ c ∧ c ≤ 0x0d)
  isspace_nul := by decide

/-- Whether `strchr(s, c)` finds anything. It looks at the NUL of `s` too. -/
def strchr (s : CString) (c : Byte) : Bool := c ∈ s.bytes ∨ c = 0

/-! ## Memory with a string in it -/

/-- Memory that a string starts in. -/
structure Buffer where
  get : ℕ → Byte
  nul : ∃ n, get n = 0

def strlen (b : Buffer) : ℕ := Nat.find b.nul

/-- A copy of the string. -/
def copyCString (b : Buffer) : CString where
  bytes := (List.range (strlen b)).map b.get
  nul_notMem h := by
    obtain ⟨n, hn, h0⟩ := List.mem_map.1 h
    exact Nat.find_min b.nul (List.mem_range.1 hn) h0

/-! ## The tokenizer -/

/-- The delimiters `",:"`. -/
def defaultDelims : CString := ⟨[0x2c, 0x3a], by decide⟩

/-- What a call of `getToken` returns, and leaves behind: the buffer, and the pointer. -/
structure Token where
  ret : ℤ
  buf : Buffer
  rest : CString

/-- The end of the loop, at the character `c` with `p` characters in the buffer. -/
def endToken (c : Byte) (rest : CString) (b : ℕ → Byte) (p : ℕ) : Token where
  ret := if c = 0 ∧ p = 0 then -1 else c.toNat
  buf := ⟨Function.update b p 0, p, Function.update_self p 0 b⟩
  rest := rest

/-- The loop, at the string `s` and the position `p` of the buffer, whose last position is
`plim`. The first case is that `s` points at the NUL: it is no space, and `strchr` finds it. -/
def tokenLoop (loc : Locale) (plim : ℕ) (delims : CString) :
    (s : List Byte) → 0 ∉ s → (ℕ → Byte) → ℕ → Token
  | [], h, b, p => endToken 0 ⟨[], h⟩ (Function.update b p 0) p
  | c :: s, h, b, p =>
    have hs : 0 ∉ s := fun h' => h (List.mem_cons_of_mem c h')
    if loc.isspace c then
      tokenLoop loc plim delims s hs b p
    else if strchr delims c then
      endToken c ⟨s, hs⟩ (Function.update b p c) p
    else
      tokenLoop loc plim delims s hs (Function.update b p c) (if p < plim then p + 1 else p)

def getToken (loc : Locale) (b : ℕ → Byte) (blen : ℕ) (s : CString)
    (delims : CString := defaultDelims) : Token :=
  tokenLoop loc (blen - 1) delims s.bytes s.nul_notMem b 0

theorem length_tokenLoop_rest_lt {loc : Locale} {plim : ℕ} {delims : CString} {s : List Byte}
    {h : 0 ∉ s} {b : ℕ → Byte} {p : ℕ} (hret : 0 < (tokenLoop loc plim delims s h b p).ret) :
    (tokenLoop loc plim delims s h b p).rest.bytes.length < s.length := by
  induction s generalizing b p with
  | nil =>
    simp only [tokenLoop, endToken] at hret
    split_ifs at hret <;> simp at hret
  | cons c s ih =>
    simp only [tokenLoop] at hret ⊢
    by_cases hc : loc.isspace c
    · simp only [hc, if_true] at hret ⊢
      exact Nat.lt_succ_of_lt (ih hret)
    · by_cases hd : strchr delims c
      · simp [hc, hd, endToken]
      · simp only [hc, hd, Bool.false_eq_true, if_false] at hret ⊢
        exact Nat.lt_succ_of_lt (ih hret)

/-- A call that ends at a delimiter has moved the pointer. -/
theorem length_rest_lt {loc : Locale} {b : ℕ → Byte} {blen : ℕ} {s delims : CString}
    (hret : 0 < (getToken loc b blen s delims).ret) :
    (getToken loc b blen s delims).rest.bytes.length < s.bytes.length :=
  length_tokenLoop_rest_lt hret

/-! ## Arrays of values -/

/-- The size of `tokBuf`. -/
def tokBufSize : ℕ := 100

def tooMany : String := "Too many values in composite arg"

section Arrays

variable {α R : Type*}

/-- The loop of `getArrayOfStrings` and of `getArrayOfDoubles`, at index `i`. They differ in
what they make of a token. -/
def arrayLoop (loc : Locale) (conv : Buffer → α) (sz : ℤ) (i : ℕ) (tokBuf : ℕ → Byte)
    (s : CString) (a : ℕ → α) : Except String ℤ × (ℕ → α) :=
  let t := getToken loc tokBuf tokBufSize s
  if hneg : t.ret < 0 then (.ok i, a)
  else if i ≥ sz then (.error tooMany, a)
  else
    let a' := Function.update a i (conv t.buf)
    if hzero : t.ret = 0 then (.ok (i + 1), a')
    else
      have : t.rest.bytes.length < s.bytes.length := length_rest_lt (show 0 < t.ret by omega)
      arrayLoop loc conv sz (i + 1) t.buf.get t.rest a'
termination_by s.bytes.length

/-- `getArrayOfStrings` and `getArrayOfDoubles`. The buffer has the contents `tokBuf` of its
storage before the first token is read into it. -/
def getArrayOf (loc : Locale) (conv : Buffer → α) (tokBuf : ℕ → Byte) (a : ℕ → α) (sz : ℤ) :
    Option CString → Except String ℤ × (ℕ → α)
  | none => (.ok (-1), a)
  | some s => arrayLoop loc conv sz 0 tokBuf s a

def getArrayOfStrings (loc : Locale) (tokBuf : ℕ → Byte) (a : ℕ → CString) (sz : ℤ)
    (s : Option CString) : Except String ℤ × (ℕ → CString) :=
  getArrayOf loc copyCString tokBuf a sz s

def getArrayOfDoubles (loc : Locale) (strtod : List Byte → R) (tokBuf : ℕ → Byte) (a : ℕ → R)
    (sz : ℤ) (s : Option CString) : Except String ℤ × (ℕ → R) :=
  getArrayOf loc (fun b => strtod (copyCString b).bytes) tokBuf a sz s

end Arrays

/-! ## Arrays of vectors of values -/

section Vectors

variable {R : Type*}

/-- How the inner loop is left: the function returns, or the next vector is begun. -/
inductive GroupExit (R : Type*) where
  | done (a : ℕ → List R)
  | next (tokBuf : ℕ → Byte) (s : CString) (a : ℕ → List R)

/-- `v.push_back(x)` on the vector `v` that is `a[i]`. -/
def pushBack (a : ℕ → List R) (i : ℕ) (x : R) : ℕ → List R := Function.update a i (a i ++ [x])

/-- The inner loop, which appends to the vector `a[i]`. `delim` ended the value before. -/
def groupLoop (loc : Locale) (strtod : List Byte → R) (i : ℕ) (delim : ℤ) (tokBuf : ℕ → Byte)
    (s : CString) (a : ℕ → List R) : GroupExit R :=
  if delim = 0x3a then .next tokBuf s a
  else
    let t := getToken loc tokBuf tokBufSize s
    if hneg : t.ret < 0 then .done a
    else
      let a' := pushBack a i (strtod (copyCString t.buf).bytes)
      if hzero : t.ret = 0 then .done a'
      else
        have : t.rest.bytes.length < s.bytes.length := length_rest_lt (show 0 < t.ret by omega)
        groupLoop loc strtod i t.ret t.buf.get t.rest a'
termination_by s.bytes.length

/-- The inner loop does not move the pointer back. -/
theorem length_next_le {loc : Locale} {strtod : List Byte → R} {i : ℕ} {delim : ℤ}
    {tokBuf tokBuf' : ℕ → Byte} {s s' : CString} {a a' : ℕ → List R}
    (h : groupLoop loc strtod i delim tokBuf s a = .next tokBuf' s' a') :
    s'.bytes.length ≤ s.bytes.length := by
  fun_induction groupLoop loc strtod i delim tokBuf s a with
  | case1 tokBuf s a =>
    cases h
    exact le_rfl
  | case2 | case3 => cases h
  | case4 delim tokBuf s a hdelim t hneg a' hzero hlt ih =>
    exact Nat.le_trans (ih h) (Nat.le_of_lt hlt)

/-- The outer loop, at index `i`. -/
def vectorsLoop (loc : Locale) (strtod : List Byte → R) (sz : ℤ) (i : ℕ) (tokBuf : ℕ → Byte)
    (s : CString) (a : ℕ → List R) : Except String ℤ × (ℕ → List R) :=
  let t := getToken loc tokBuf tokBufSize s
  if hneg : t.ret < 0 then (.ok i, a)
  else if i ≥ sz then (.error tooMany, a)
  else
    let a' := pushBack (Function.update a i []) i (strtod (copyCString t.buf).bytes)
    if hzero : t.ret = 0 then (.ok (i + 1), a')
    else
      match h : groupLoop loc strtod i t.ret t.buf.get t.rest a' with
      | .done a'' => (.ok (i + 1), a'')
      | .next tokBuf' s' a'' =>
        have : s'.bytes.length < s.bytes.length :=
          Nat.lt_of_le_of_lt (length_next_le h) (length_rest_lt (show 0 < t.ret by omega))
        vectorsLoop loc strtod sz (i + 1) tokBuf' s' a''
termination_by s.bytes.length

def getArrayOfVectorsOfDoubles (loc : Locale) (strtod : List Byte → R) (tokBuf : ℕ → Byte)
    (a : ℕ → List R) (sz : ℤ) : Option CString → Except String ℤ × (ℕ → List R)
  | none => (.ok (-1), a)
  | some s => vectorsLoop loc strtod sz 0 tokBuf s a

end Vectors

end CmdLine

end DBUtl
