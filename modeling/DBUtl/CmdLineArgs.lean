import DBUtl.CmdLineJoin
import DBUtl.Lib.Compact

/-!
# Arguments with flags

`getSuffixAfterPrefixMatch` looks for a flag at the start of an argument and returns what follows
it, which the functions for composite arguments then read. It returns a null pointer if the flag is
not there, and those functions return `-1` for it. `compressArgs` takes the arguments that have been
set to null out of the array.

`strncmp` compares as many characters as the flag has. An argument that is shorter has its NUL
there, which no character of the flag is, and the comparison ends.
-/

namespace DBUtl

namespace CmdLine

/-- `strncmp(s, t, n)`, for strings whose bytes are followed by a NUL. -/
def strncmp : (s t : List Byte) → ℕ → ℤ
  | _, _, 0 => 0
  | s, t, n + 1 =>
    let c := s.headD 0
    let d := t.headD 0
    if c ≠ d then (c.toNat : ℤ) - d.toNat
    else if c = 0 then 0
    else strncmp s.tail t.tail n

/-- The string at `s + n`. -/
def CString.drop (s : CString) (n : ℕ) : CString :=
  ⟨s.bytes.drop n, fun h => s.nul_notMem (List.mem_of_mem_drop h)⟩

def getSuffixAfterPrefixMatch (s flagArg : CString) : Option CString :=
  let n := flagArg.bytes.length
  if strncmp s.bytes flagArg.bytes n = 0 then some (s.drop n) else none

/-- A null pointer is `none`. The loop runs up to `argc`, which is of type `int`. -/
def compressArgs (argc : ℤ) (argv : ℕ → Option CString) : ℤ × (ℕ → Option CString) :=
  let (newArgc, argv) := compactFrom Option.isSome argc.toNat 0 0 argv
  (newArgc, argv)

/-! ## The flag -/

/-- What is compared is equal when the flag is a prefix. -/
theorem strncmp_eq_zero_iff {s t : List Byte} (ht : 0 ∉ t) :
    strncmp s t t.length = 0 ↔ t <+: s := by
  induction t generalizing s with
  | nil => simp [strncmp]
  | cons d t ih =>
    obtain ⟨hd, ht'⟩ := notMem_of_cons ht
    by_cases hc : s.headD 0 = d
    · obtain ⟨rest, rfl⟩ : ∃ rest, s = d :: rest := by
        cases s with
        | nil => exact absurd hc.symm hd
        | cons c rest => exact ⟨rest, by rw [← hc]; rfl⟩
      simp [strncmp, hd, ih ht', List.cons_prefix_cons]
    · have hne : ((s.headD 0).toNat : ℤ) - d.toNat ≠ 0 := fun h =>
        hc (UInt8.toNat_inj.mp (by omega))
      have hprefix : ¬ d :: t <+: s := by
        rintro ⟨rest, rfl⟩
        exact hc rfl
      rw [List.length_cons, strncmp]
      exact iff_of_false (by rwa [List.headD_cons, if_pos hc]) hprefix

/-- The argument is the flag with a string behind it. -/
def CString.append (s t : CString) : CString where
  bytes := s.bytes ++ t.bytes
  nul_notMem h := (List.mem_append.mp h).elim s.nul_notMem t.nul_notMem

@[simp] theorem CString.append_bytes (s t : CString) :
    (s.append t).bytes = s.bytes ++ t.bytes := rfl

theorem suffix_eq_none_iff {s flagArg : CString} :
    getSuffixAfterPrefixMatch s flagArg = none ↔ ¬ flagArg.bytes <+: s.bytes := by
  rw [← strncmp_eq_zero_iff flagArg.nul_notMem, getSuffixAfterPrefixMatch]
  simp

theorem suffix_append (flagArg t : CString) :
    getSuffixAfterPrefixMatch (flagArg.append t) flagArg = some t := by
  have hmatch : strncmp (flagArg.append t).bytes flagArg.bytes flagArg.bytes.length = 0 :=
    (strncmp_eq_zero_iff flagArg.nul_notMem).mpr (List.prefix_append _ _)
  rw [getSuffixAfterPrefixMatch, if_pos hmatch, Option.some.injEq]
  cases t
  simp [CString.drop]

/-! ## The value of a flag -/

theorem CString.eq_of_bytes {s t : CString} (h : s.bytes = t.bytes) : s = t := by
  cases s
  cases t
  cases h
  rfl

/-- A count is never `-1`. -/
theorem counted_ne (sz : ℤ) (n : ℕ) : counted sz n ≠ .ok (-1) := by
  unfold counted
  split
  · intro h
    have hn : (n : ℤ) = -1 := Except.ok.inj h
    omega
  · simp

/-- What was joined from short strings is read back. -/
theorem read_joined {loc : Locale} (hcomma : loc.isspace 0x2c = false) {ss : List CString}
    (hplain : ∀ s ∈ ss, s.Plain loc) (hlast : ∀ s ∈ ss.getLast?, s.bytes ≠ [])
    (hshort : ∀ s ∈ ss, s.bytes.length ≤ 99) (tokBuf : ℕ → Byte) (a : ℕ → CString) {sz : ℕ}
    (hsz : ss.length ≤ sz) :
    ∃ a', getArrayOfStrings loc tokBuf a sz (some (joined ss)) = (.ok ss.length, a') ∧
      (∀ (i : ℕ) (h : i < ss.length), a' i = ss[i]) ∧ ∀ i, ss.length ≤ i → a' i = a i := by
  have hF := fieldTexts_joined hcomma hplain hlast
  obtain ⟨a', hret, hstored⟩ := getArrayOfStrings_spec loc tokBuf (joined ss) sz a
  rw [hF, List.length_map] at hret hstored
  rw [counted_of_le (by simpa using hsz)] at hret
  rw [min_eq_right hsz] at hstored
  refine ⟨a', hret, fun i h => CString.eq_of_bytes ?_, hstored.untouched⟩
  have hslot := hstored.slot i (by simpa using h) h
  rw [hslot, List.getElem_map, List.take_of_length_le (hshort _ (List.getElem_mem h))]

/-- **A list behind a flag.** Without the flag, the function returns `-1` and leaves the array
alone; with it, the strings of the list are stored, and nothing of the flag. -/
theorem getArrayOfStrings_flag (loc : Locale) (hcomma : loc.isspace 0x2c = false)
    (flagArg s : CString) (tokBuf : ℕ → Byte) (a : ℕ → CString) (sz : ℕ) :
    let r := getArrayOfStrings loc tokBuf a sz (getSuffixAfterPrefixMatch s flagArg)
    (r.1 = .ok (-1) ↔ ¬ flagArg.bytes <+: s.bytes) ∧ (r.1 = .ok (-1) → r.2 = a) ∧
      ∀ ss : List CString, s = flagArg.append (joined ss) → (∀ s ∈ ss, s.Plain loc) →
        (∀ s ∈ ss.getLast?, s.bytes ≠ []) → (∀ s ∈ ss, s.bytes.length ≤ 99) → ss.length ≤ sz →
        r.1 = .ok ss.length ∧ (∀ (i : ℕ) (h : i < ss.length), r.2 i = ss[i]) ∧
          ∀ i, ss.length ≤ i → r.2 i = a i := by
  intro r
  by_cases hprefix : flagArg.bytes <+: s.bytes
  · have hcounted : r.1 ≠ .ok (-1) := by
      obtain ⟨t, ht⟩ := Option.ne_none_iff_exists'.mp
        (mt suffix_eq_none_iff.mp (not_not.mpr hprefix))
      obtain ⟨a', hret, -⟩ := getArrayOfStrings_spec loc tokBuf t sz a
      simp only [r, ht, hret]
      exact counted_ne _ _
    refine ⟨iff_of_false hcounted (not_not.mpr hprefix), fun h => absurd h hcounted, ?_⟩
    intro ss hs hplain hlast hshort hsz
    obtain ⟨a', hret, hslots, huntouched⟩ := read_joined hcomma hplain hlast hshort tokBuf a hsz
    simp only [r, hs, suffix_append, hret]
    exact ⟨trivial, hslots, huntouched⟩
  · have hnone : r = (.ok (-1), a) := by
      simp only [r, suffix_eq_none_iff.mpr hprefix]
      rfl
    refine ⟨iff_of_true (by rw [hnone]) hprefix, fun _ => by rw [hnone], fun ss hs => ?_⟩
    exact absurd (by rw [hs]; exact List.prefix_append _ _) hprefix

/-- `"-x=a,b"`, and another argument. -/
theorem getArrayOfStrings_flag_two :
    let flagArg : CString := ⟨[0x2d, 0x78, 0x3d], by decide⟩
    let ss : List CString := [⟨[0x61], by decide⟩, ⟨[0x62], by decide⟩]
    let read := fun s => getArrayOfStrings .C (fun _ => 0) (fun _ => ⟨[], by decide⟩) (2 : ℕ)
      (getSuffixAfterPrefixMatch s flagArg)
    (read (flagArg.append (joined ss))).1 = .ok 2 ∧ (read (joined ss)).1 = .ok (-1) := by
  intro flagArg ss read
  have hlist := getArrayOfStrings_flag .C (by decide) flagArg (flagArg.append (joined ss))
    (fun _ => 0) (fun _ => ⟨[], by decide⟩) 2
  have hother := getArrayOfStrings_flag .C (by decide) flagArg (joined ss) (fun _ => 0)
    (fun _ => ⟨[], by decide⟩) 2
  refine ⟨(hlist.2.2 ss rfl ?_ ?_ ?_ (by decide)).1, hother.1.mpr (by decide)⟩
  · simp [CString.Plain, ss]
    decide
  · simp [ss]
  · simp [ss]

/-! ## Taking arguments out -/

/-- The arguments that are not null. -/
def remaining (argc : ℤ) (argv : ℕ → Option CString) : List CString :=
  (List.range argc.toNat).filterMap argv

theorem compressArgs_eq (argc : ℤ) (argv : ℕ → Option CString) :
    compressArgs argc argv =
      (((remaining argc argv).length : ℤ), storeFrom 0 ((remaining argc argv).map some) argv) := by
  have hkept : keptFrom Option.isSome argc.toNat 0 argv = (remaining argc argv).map some := by
    rw [keptFrom, ← List.range_eq_range', remaining, List.map_filterMap_some_eq_filter_map_isSome]
  simp only [compressArgs, compactFrom_eq le_rfl, hkept, Nat.zero_add, List.length_map]

/-- **Compaction of the arguments.** The arguments that are not null move to the front, in order,
and `argc` counts them; the array behind them stays as it was, and a second call changes nothing.
For a negative `argc` there are none. -/
theorem compressArgs_spec (argc : ℤ) (argv : ℕ → Option CString) :
    let r := compressArgs argc argv
    r.1 = (remaining argc argv).length ∧
      (∀ (k : ℕ) (h : k < (remaining argc argv).length), r.2 k = some (remaining argc argv)[k]) ∧
      (∀ k, (remaining argc argv).length ≤ k → r.2 k = argv k) ∧
      compressArgs r.1 r.2 = r := by
  intro r
  have hr : r = (((remaining argc argv).length : ℤ),
      storeFrom 0 ((remaining argc argv).map some) argv) := compressArgs_eq argc argv
  refine ⟨by rw [hr], fun k h => ?_, fun k h => ?_, ?_⟩
  · have hk : k < ((remaining argc argv).map some).length := by rwa [List.length_map]
    have hread := storeFrom_of_lt 0 hk argv
    rw [Nat.zero_add, List.getElem_map] at hread
    rw [hr]
    exact hread
  · rw [hr]
    exact storeFrom_of_notMem (.inr (by rwa [Nat.zero_add, List.length_map])) argv
  · have hidem := compactFrom_idem (p := Option.isSome) argc.toNat argv
    simp only [r, compressArgs, Int.toNat_natCast, hidem]

end CmdLine

end DBUtl
