import DBUtl.AlignedMemHugePageProof
import DBUtl.Lib.Ledger
import Mathlib.Algebra.Order.Ring.Int

/-!
# What the counters are worth

`deallocate` restores neither `totalPages` nor `numSegments`, and a request for too many pages is
reported but served. This file says exactly which calls leave the counters describing the segments
that are live.

* `Program.Described` — what the counters should say.
* `Meets` — the calls that keep it.
* `described_iff` — a run keeps it all along, exactly when all its calls do.
-/

namespace DBUtl

namespace HugePage

open AlignedMem (Word)

/-- The pages of a segment, as the table has them. -/
def Segment.pages (st : Statics) (s : Segment) : ℤ := (st.shmSize s.index).toInt

/-- The counters describe the live segments. -/
structure Program.Described (w : Program) : Prop where
  totalPages_eq : w.st.totalPages.toInt = (w.live.map (Segment.pages w.st)).sum
  totalPages_le : w.st.totalPages ≤ MAX_PAGES
  refused : ∀ sys nBytes alignSize,
    .printf "Too many segments allocated." ∈ (allocate sys w.st nBytes alignSize).1 →
      w.live.length = MAX_SEGMENTS

/-- The call keeps the counters right. An allocation may not exceed the pages, and may take the last
entry only if nothing was given back before. What is given back may have no pages, and there must
be an entry left. -/
def Meets (w : Program) : Call → Prop
  | .allocate _ nBytes _ =>
    -2 ^ 31 ≤ w.st.totalPages.toInt + (pagesFor nBytes).toInt ∧
      w.st.totalPages.toInt + (pagesFor nBytes).toInt ≤ MAX_PAGES.toInt ∧
      (w.st.numSegments + 1 = MAX_SEGMENTS → w.live.length + 1 = MAX_SEGMENTS)
  | .deallocate p => ∀ s, w.live.find? (·.addr = p) = some s →
    s.pages w.st = 0 ∧ w.st.numSegments < MAX_SEGMENTS

/-! ## The checks -/

theorem not_mem_attach (sys : System) (st : Statics) (pages : Int32)
    (h : st.numSegments < MAX_SEGMENTS) (s : String) : .printf s ∉ (attach sys st pages h).1 := by
  simp only [attach]
  split
  · simp
  · split <;> simp

/-- The message about segments, and when it comes. -/
theorem refused_iff {st : Statics} : (∃ sys nBytes alignSize,
    .printf "Too many segments allocated." ∈ (allocate sys st nBytes alignSize).1) ↔
      st.numSegments = MAX_SEGMENTS := by
  constructor
  · rintro ⟨sys, nBytes, alignSize, hmem⟩
    rcases allocate_cases sys st nBytes alignSize with
      heq | heq | ⟨hfull, -⟩ | ⟨h, reported, hreported, heq⟩
    · rw [heq] at hmem
      cases hmem
    · rw [heq] at hmem
      simp at hmem
    · exact st.numSegments_le.antisymm (not_lt.mp hfull)
    · rw [heq] at hmem
      rcases List.mem_append.mp hmem with hmem | hmem
      · rcases hreported with rfl | rfl <;> simp at hmem
      · exact absurd hmem (not_mem_attach sys st (pagesFor nBytes) h _)
  · intro h
    refine ⟨⟨fun _ _ => 0, fun _ => 0⟩, 1, 8, ?_⟩
    have hfull : ¬ st.numSegments < MAX_SEGMENTS := h ▸ lt_irrefl _
    have hpow : ¬ (8 : Word) &&& (8 - 1) ≠ 0 := by decide
    have halign : ¬ toSize PAGESIZE < 8 := by decide
    unfold allocate
    rw [if_neg hpow, if_neg halign, dif_neg hfull]
    simp

theorem described_iff_counters {w : Program} : w.Described ↔
    w.st.totalPages.toInt = (w.live.map (Segment.pages w.st)).sum ∧
      w.st.totalPages ≤ MAX_PAGES ∧
      (w.st.numSegments = MAX_SEGMENTS → w.live.length = MAX_SEGMENTS) := by
  rw [← refused_iff]
  constructor
  · rintro ⟨heq, hle, href⟩
    exact ⟨heq, hle, fun ⟨sys, nBytes, alignSize, hmem⟩ => href sys nBytes alignSize hmem⟩
  · rintro ⟨heq, hle, href⟩
    exact ⟨heq, hle, fun sys nBytes alignSize hmem => href ⟨sys, nBytes, alignSize, hmem⟩⟩

/-! ## Steps -/

/-- The call returns. -/
def Returns (w : Program) (c : Call) : Prop := (program.step w c).1.2.Returns

theorem step_allocate {w : Program} {sys : System} {nBytes alignSize : Word}
    (hret : Returns w (.allocate sys nBytes alignSize)) :
    ∃ h shmid p, (program.step w (.allocate sys nBytes alignSize)).2 =
      ⟨w.st.record h shmid (pagesFor nBytes) p, ⟨p, ⟨w.st.numSegments, h⟩⟩ :: w.live⟩ := by
  obtain ⟨h, shmid, p, heq⟩ := allocate_returns hret
  exact ⟨h, shmid, p, by simp [program, machine, heq, Program.next, h]⟩

/-- The live segments have entries. -/
def Indexed (w : Program) : Prop := ∀ s ∈ w.live, s.index ∈ w.st.entries

theorem indexed_step (w : Program) (c : Call) (hw : Indexed w) (hret : Returns w c) :
    Indexed (program.step w c).2 := by
  cases c with
  | allocate sys nBytes alignSize =>
    obtain ⟨h, shmid, p, heq⟩ := step_allocate hret
    rw [heq]
    intro s hs
    apply mem_entries_record.mpr
    rcases List.mem_cons.mp hs with rfl | hs
    · exact Or.inr rfl
    · exact Or.inl (hw s hs)
  | deallocate p =>
    intro s hs
    have hlive : s ∈ w.live := List.mem_of_mem_eraseP hs
    simpa [program, machine, deallocate_eq] using hw s hlive

/-- A sum that does not wrap, below the limit. -/
theorem add_le_maxPages_iff (a b : Int32) :
    ((a + b).toInt = a.toInt + b.toInt ∧ a + b ≤ MAX_PAGES) ↔
      -2 ^ 31 ≤ a.toInt + b.toInt ∧ a.toInt + b.toInt ≤ MAX_PAGES.toInt := by
  have hmax : MAX_PAGES.toInt = 600 := by decide
  have hlow := (a + b).le_toInt
  rw [Int32.le_iff_toInt_le, hmax]
  constructor
  · rintro ⟨heq, hle⟩
    rw [heq] at hlow hle
    exact ⟨by omega, hle⟩
  · rintro ⟨hlo, hhi⟩
    have heq : (a + b).toInt = a.toInt + b.toInt := by
      rw [Int32.toInt_add]
      exact Int.bmod_eq_of_le (by omega) (by omega)
    exact ⟨heq, by rwa [heq]⟩

theorem described_record {w : Program} (hw : Indexed w) (hd : w.Described)
    (h : w.st.numSegments < MAX_SEGMENTS) (shmid pages : Int32) (p : Word) :
    Program.Described ⟨w.st.record h shmid pages p, ⟨p, ⟨w.st.numSegments, h⟩⟩ :: w.live⟩ ↔
      -2 ^ 31 ≤ w.st.totalPages.toInt + pages.toInt ∧
        w.st.totalPages.toInt + pages.toInt ≤ MAX_PAGES.toInt ∧
        (w.st.numSegments + 1 = MAX_SEGMENTS → w.live.length + 1 = MAX_SEGMENTS) := by
  have hold : w.live.map (Segment.pages (w.st.record h shmid pages p)) =
      w.live.map (Segment.pages w.st) := by
    apply List.map_congr_left
    intro s hs
    rw [Segment.pages, record_shmSize (hw s hs), Segment.pages]
  have hsum : ((⟨p, ⟨w.st.numSegments, h⟩⟩ :: w.live : List Segment).map
      (Segment.pages (w.st.record h shmid pages p))).sum =
        w.st.totalPages.toInt + pages.toInt := by
    rw [List.map_cons, List.sum_cons, hold, ← hd.totalPages_eq, Segment.pages,
      record_shmSize_next, add_comm]
  rw [described_iff_counters, hsum, ← and_assoc, ← and_assoc, ← add_le_maxPages_iff]
  rfl

/-- Giving back a segment leaves the counters as they are. -/
theorem described_deallocate {w : Program} (hd : w.Described) (p : Word) :
    (program.step w (.deallocate p)).2.Described ↔ Meets w (.deallocate p) := by
  have hstep : (program.step w (.deallocate p)).2.Described ↔
      w.st.totalPages.toInt = ((w.live.eraseP (·.addr = p)).map (Segment.pages w.st)).sum ∧
        w.st.totalPages ≤ MAX_PAGES ∧
        (w.st.numSegments = MAX_SEGMENTS →
          (w.live.eraseP (·.addr = p)).length = MAX_SEGMENTS) := by
    rw [described_iff_counters]
    simp only [program, machine, deallocate_eq, Program.next]
    rfl
  obtain ⟨hsum, hle, hseg⟩ := described_iff_counters.mp hd
  rw [hstep, Meets]
  cases hf : w.live.find? (·.addr = p) with
  | none =>
    have hsame : w.live.eraseP (·.addr = p) = w.live :=
      List.eraseP_of_forall_not (List.find?_eq_none.mp hf)
    rw [hsame]
    exact ⟨fun _ s hs => absurd hs (by simp), fun _ => ⟨hsum, hle, hseg⟩⟩
  | some s =>
    have hperm := perm_cons_eraseP hf
    have hlen := hperm.length_eq
    have hsplit := (hperm.map (Segment.pages w.st)).sum_eq
    rw [List.length_cons] at hlen
    rw [List.map_cons, List.sum_cons] at hsplit
    constructor
    · rintro ⟨hsum', -, hseg'⟩ s' hs'
      obtain rfl : s = s' := Option.some.inj hs'
      refine ⟨by omega, ?_⟩
      by_contra hfull
      have hnum : w.st.numSegments = MAX_SEGMENTS :=
        le_antisymm w.st.numSegments_le (not_lt.mp hfull)
      have := hseg hnum
      have := hseg' hnum
      omega
    · intro hmeets
      obtain ⟨hzero, hroom⟩ := hmeets s rfl
      exact ⟨by omega, hle, fun hnum => absurd hnum hroom.ne⟩

theorem described_step_iff (w : Program) (c : Call) (hw : Indexed w) (hd : w.Described)
    (hret : Returns w c) : (program.step w c).2.Described ↔ Meets w c := by
  cases c with
  | allocate sys nBytes alignSize =>
    obtain ⟨h, shmid, p, heq⟩ := step_allocate hret
    rw [heq]
    exact described_record hw hd h shmid (pagesFor nBytes) p
  | deallocate p => exact described_deallocate hd p

/-! ## Runs -/

theorem described_init : Program.init.Described := by
  refine described_iff_counters.mpr ⟨rfl, by decide, fun h => ?_⟩
  exact absurd h (by decide)

theorem indexed_init : Indexed Program.init := fun _ hs => absurd hs List.not_mem_nil

/-- **The counters describe the live segments exactly as long as the calls allow it.** In every run
of calls that return, they do so in every state reached, exactly when every call meets `Meets`. -/
theorem described_iff (calls : List Call) (hok : program.Along Returns Program.init calls) :
    (∀ pre, pre <+: calls → (program.exec Program.init pre).Described) ↔
      program.Along Meets Program.init calls :=
  Machine.along_iff indexed_step described_step_iff calls indexed_init described_init hok

/-- Two segments, with 600 pages between them. -/
theorem described_full :
    (program.exec Program.init [.allocate (answering 3 0x200000) 0x20000000 8,
      .allocate (answering 4 0x40000000) 0x2b000000 8]).Described := by
  let calls : List Call := [.allocate (answering 3 0x200000) 0x20000000 8,
    .allocate (answering 4 0x40000000) 0x2b000000 8]
  have hok : program.Along Returns Program.init calls := ⟨trivial, trivial, trivial⟩
  have hmeets : program.Along Meets Program.init calls :=
    ⟨⟨by decide, by decide, by decide⟩, ⟨by decide, by decide, by decide⟩, trivial⟩
  exact (described_iff calls hok).mpr hmeets calls List.prefix_rfl

/-- One page, given back, is still counted. -/
theorem not_described_deallocate :
    ¬ ∀ calls : List Call, program.Along Returns Program.init calls →
      (program.exec Program.init calls).Described := by
  intro h
  let calls : List Call := [.allocate (answering 3 0x200000) 100 8, .deallocate 0x200000]
  have hok : program.Along Returns Program.init calls := ⟨trivial, trivial, trivial⟩
  have htotal := (h calls hok).totalPages_eq
  exact absurd htotal (by decide)

end HugePage

end DBUtl
