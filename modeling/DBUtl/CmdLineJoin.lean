import DBUtl.CmdLineProof

/-!
# Parsing what was joined

The inverse of `getArrayOfStrings` joins a list of strings with commas. Strings without spaces and
delimiters come back one by one, and as many as there were, if the last one is not empty: an empty
last field does not count. But a token has to fit into the buffer, and what of a string does not is
left out.
-/

namespace DBUtl

namespace CmdLine

/-- A string that is one field: it has neither spaces nor delimiters. -/
def CString.Plain (loc : Locale) (s : CString) : Prop :=
  ∀ c ∈ s.bytes, loc.isspace c = false ∧ isDelim c = false

/-- The strings, joined with `','`. -/
def joined (ss : List CString) : CString where
  bytes := [0x2c].intercalate (ss.map CString.bytes)
  nul_notMem h := by
    rcases mem_intercalate h with h | ⟨l, hl, h⟩
    · exact absurd h (by decide)
    · obtain ⟨s, -, rfl⟩ := List.mem_map.1 hl
      exact s.nul_notMem h

section Joined

variable {loc : Locale} {ss : List CString}

/-- There are no spaces to leave out. -/
theorem text_joined (hcomma : loc.isspace 0x2c = false) (hplain : ∀ s ∈ ss, s.Plain loc) :
    (joined ss).text loc = [0x2c].intercalate (ss.map CString.bytes) := by
  refine List.filter_eq_self.2 fun c hc => ?_
  rcases mem_intercalate hc with rfl | ⟨l, hl, hc⟩
  · simp [hcomma]
  · obtain ⟨s, hs, rfl⟩ := List.mem_map.1 hl
    simp [(hplain s hs c hc).1]

/-- **The fields are the strings.** -/
theorem fieldTexts_joined (hcomma : loc.isspace 0x2c = false) (hplain : ∀ s ∈ ss, s.Plain loc)
    (hlast : ∀ s ∈ ss.getLast?, s.bytes ≠ []) :
    fieldTexts loc (joined ss) = ss.map CString.bytes := by
  rw [fieldTexts, text_joined hcomma hplain]
  by_cases hss : ss = []
  · subst hss
    rfl
  · rw [splitOnP_intercalate (by decide) (by simpa using hss)]
    · refine dropLastIf_of_getLast fun l hl => ?_
      rw [List.getLast?_map] at hl
      obtain ⟨s, hs, rfl⟩ := Option.map_eq_some_iff.1 hl
      simpa using hlast s hs
    · intro l hl c hc
      obtain ⟨s, hs, rfl⟩ := List.mem_map.1 hl
      exact (hplain s hs c hc).2

end Joined

/-- **What was joined is parsed into what it was joined from, cut to the buffer.** A list of strings
comes back as it was exactly if none of them has more than 99 characters. -/
theorem getArrayOfStrings_joined (loc : Locale) (hcomma : loc.isspace 0x2c = false)
    (ss : List CString) (hplain : ∀ s ∈ ss, s.Plain loc)
    (hlast : ∀ s ∈ ss.getLast?, s.bytes ≠ []) (tokBuf : ℕ → Byte) (a : ℕ → CString) (sz : ℕ)
    (hsz : ss.length ≤ sz) :
    ∃ a', getArrayOfStrings loc tokBuf a sz (some (joined ss)) = (.ok ss.length, a') ∧
      (∀ (i : ℕ) (h : i < ss.length), (a' i).bytes = ss[i].bytes.take 99) ∧
      (∀ i, ss.length ≤ i → a' i = a i) ∧
      ((∀ (i : ℕ) (h : i < ss.length), a' i = ss[i]) ↔ ∀ s ∈ ss, s.bytes.length ≤ 99) := by
  have hF := fieldTexts_joined hcomma hplain hlast
  obtain ⟨a', hret, hstored⟩ := getArrayOfStrings_spec loc tokBuf (joined ss) sz a
  rw [hF, List.length_map] at hret hstored
  rw [counted_of_le (by simpa using hsz)] at hret
  rw [min_eq_right hsz] at hstored
  have hslot (i : ℕ) (h : i < ss.length) : (a' i).bytes = ss[i].bytes.take 99 := by
    rw [← List.getElem_map CString.bytes]
    exact hstored.slot i (by simpa using h) h
  refine ⟨a', hret, hslot, hstored.untouched, ?_⟩
  constructor
  · intro hsame s hs
    obtain ⟨i, hi, rfl⟩ := List.getElem_of_mem hs
    have htake := hslot i hi
    rw [hsame i hi] at htake
    rw [htake, List.length_take]
    exact min_le_left _ _
  · intro hlen i hi
    have htake := hslot i hi
    rw [List.take_of_length_le (hlen _ (List.getElem_mem hi))] at htake
    cases hsi : a' i
    cases hss : ss[i]
    simp_all

/-- `"a"`, the empty string and `"b"`, in an array of three. -/
theorem getArrayOfStrings_joined_three :
    let ss : List CString := [⟨[0x61], by decide⟩, ⟨[], by decide⟩, ⟨[0x62], by decide⟩]
    ∃ a', getArrayOfStrings .C (fun _ => 0) (fun _ => ⟨[], by decide⟩) 3 (some (joined ss)) =
        (.ok 3, a') ∧
      ∀ (i : ℕ) (h : i < ss.length), a' i = ss[i] := by
  intro ss
  obtain ⟨a', hret, -, -, hsame⟩ := getArrayOfStrings_joined .C (by decide) ss
    (by simp [ss, CString.Plain]; decide) (by simp [ss]) (fun _ => 0) (fun _ => ⟨[], by decide⟩) 3
    (by decide)
  exact ⟨a', hret, hsame.2 (by simp [ss])⟩

/-- A hundred times `'a'`. -/
def longString : CString := ⟨List.replicate 100 0x61, by decide⟩

/-- A string of 100 characters loses the last one. -/
theorem getArrayOfStrings_joined_ne :
    ¬ ∀ (ss : List CString), (∀ s ∈ ss, s.Plain .C) → (∀ s ∈ ss.getLast?, s.bytes ≠ []) →
      ∀ (tokBuf : ℕ → Byte) (a : ℕ → CString) (sz : ℕ), ss.length ≤ sz →
        ∃ a', getArrayOfStrings .C tokBuf a sz (some (joined ss)) = (.ok ss.length, a') ∧
          ∀ (i : ℕ) (h : i < ss.length), a' i = ss[i] := by
  intro h
  have hplain : ∀ s ∈ [longString], s.Plain .C := by
    intro s hs c hc
    obtain rfl := List.mem_singleton.1 hs
    obtain rfl := List.eq_of_mem_replicate hc
    decide
  have hlast : ∀ s ∈ [longString].getLast?, s.bytes ≠ [] := by
    intro s hs
    obtain rfl := Option.some.inj hs
    decide
  obtain ⟨a', hret, hsame⟩ :=
    h [longString] hplain hlast (fun _ => 0) (fun _ => longString) 1 le_rfl
  have hcomma : Locale.C.isspace 0x2c = false := by decide
  have hF := fieldTexts_joined hcomma hplain hlast
  obtain ⟨a'', hret', hstored⟩ :=
    getArrayOfStrings_spec .C (fun _ => 0) (joined [longString]) 1 (fun _ => longString)
  obtain rfl : a' = a'' := congrArg Prod.snd (hret.symm.trans hret')
  rw [hF] at hstored
  have hslot := hstored.slot 0 (by decide) (by decide)
  have hlen : longString.bytes.length = 99 := by
    rw [show longString = a' 0 from (hsame 0 (by decide)).symm, hslot]
    rfl
  exact absurd hlen (by decide)

end CmdLine

end DBUtl
