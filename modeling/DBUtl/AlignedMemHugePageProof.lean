import DBUtl.AlignedMemHugePage
import Mathlib.Data.List.Nodup

/-!
# Giving back a huge page

`deallocate` goes through the whole table, and removes and clears every entry that is not cleared
yet. It releases what it is given and nothing else only if there is nothing else.

* `deallocate_eq`, `allocate_returns` — what the two functions do.
* `releasesOnly_iff` — the result.
-/

namespace DBUtl

namespace HugePage

open AlignedMem (Word)

variable {st : Statics} {p : Word}

/-! ## Deallocation -/

@[simp] theorem mem_entries {i : Fin MAX_SEGMENTS} : i ∈ st.entries ↔ i.val < st.numSegments := by
  simp [Statics.entries]

theorem entries_nodup (st : Statics) : st.entries.Nodup := (List.nodup_finRange _).filter _

/-- Clearing an entry that is cleared changes nothing. -/
theorem deallocateAt_eq (st : Statics) (i : Fin MAX_SEGMENTS) :
    deallocateAt st i = (if st.shmAddr i ≠ 0 then [.rmid (st.shmId i)] else [],
      { st with shmAddr := Function.update st.shmAddr i 0 }) := by
  unfold deallocateAt
  by_cases hi : st.shmAddr i = 0
  · have hsame : Function.update st.shmAddr i 0 = st.shmAddr := by
      rw [← hi, Function.update_eq_self]
    rw [if_neg (not_not.mpr hi), if_neg (not_not.mpr hi), hsame]
  · rw [if_pos hi, if_pos hi]

theorem deallocateLoop_eq {is : List (Fin MAX_SEGMENTS)} (h : is.Nodup) (st : Statics) :
    deallocateLoop st is =
      ((is.filter (st.shmAddr · ≠ 0)).map fun i => .rmid (st.shmId i),
        { st with shmAddr := fun i => if i ∈ is then 0 else st.shmAddr i }) := by
  induction is generalizing st with
  | nil => simp [deallocateLoop]
  | cons i is ih =>
    obtain ⟨hi, his⟩ := List.nodup_cons.mp h
    -- the entries still to come are not the one just cleared
    have hfilter : is.filter (Function.update st.shmAddr i 0 · ≠ 0) =
        is.filter (st.shmAddr · ≠ 0) := by
      apply List.filter_congr
      intro j hj
      have hne : j ≠ i := fun he => hi (he ▸ hj)
      rw [Function.update_of_ne hne]
    have haddr : (fun j => if j ∈ is then 0 else Function.update st.shmAddr i 0 j) =
        fun j => if j ∈ i :: is then 0 else st.shmAddr j := by
      funext j
      by_cases hj : j = i
      · simp [hj]
      · simp [hj]
    simp only [deallocateLoop, deallocateAt_eq, ih his, hfilter, haddr]
    by_cases hnull : st.shmAddr i = 0
    · rw [if_neg (not_not.mpr hnull), List.nil_append,
        List.filter_cons_of_neg (by simpa using hnull)]
    · rw [if_pos hnull, List.singleton_append, List.filter_cons_of_pos (by simpa using hnull),
        List.map_cons]

/-- **What `deallocate` does.** Every entry that is in use and not cleared is removed and
cleared. -/
theorem deallocate_eq (st : Statics) (p : Word) :
    deallocate st p =
      ((st.entries.filter (st.shmAddr · ≠ 0)).map fun i => .rmid (st.shmId i),
        { st with shmAddr := fun i => if i.val < st.numSegments then 0 else st.shmAddr i }) := by
  simp [deallocate, deallocateLoop_eq (entries_nodup st)]

/-! ## Allocation -/

theorem attach_returns {sys : System} {pages : Int32} {h : st.numSegments < MAX_SEGMENTS}
    (hret : (attach sys st pages h).2.1.Returns) :
    ∃ shmid p, (attach sys st pages h).2 = (.returned p, st.record h shmid pages p) := by
  simp only [attach] at hret ⊢
  split at hret
  case isTrue => exact hret.elim
  case isFalse hid =>
    split at hret
    case isTrue => exact hret.elim
    case isFalse hp => exact ⟨_, _, by rw [if_neg hid, if_neg hp]⟩

/-- How far `allocate` gets: one of the checks ends it, or it goes on to the system, with or without
the message about pages. -/
theorem allocate_cases (sys : System) (st : Statics) (nBytes alignSize : Word) :
    allocate sys st nBytes alignSize =
        ([], .threw "AllignedMem::allocate alignment not a power of 2", st) ∨
      allocate sys st nBytes alignSize =
        ([.printf "alignment cannot be satisfied."], .exited 1, st) ∨
      (¬ st.numSegments < MAX_SEGMENTS ∧ allocate sys st nBytes alignSize =
        ([.printf "Too many segments allocated."], .exited 1, st)) ∨
      ∃ h reported, (reported = [] ∨ reported = [.perror "Too many pages allocated."]) ∧
        allocate sys st nBytes alignSize =
          (reported ++ (attach sys st (pagesFor nBytes) h).1,
            (attach sys st (pagesFor nBytes) h).2) := by
  unfold allocate
  by_cases hpow : alignSize &&& (alignSize - 1) ≠ 0
  · exact Or.inl (if_pos hpow)
  by_cases halign : toSize PAGESIZE < alignSize
  · exact Or.inr (Or.inl (by rw [if_neg hpow, if_pos halign]))
  by_cases h : st.numSegments < MAX_SEGMENTS
  · rw [if_neg hpow, if_neg halign]
    dsimp only
    rw [dif_pos h]
    refine Or.inr (Or.inr (Or.inr ⟨h, ?_⟩))
    split
    · exact ⟨_, Or.inr rfl, rfl⟩
    · exact ⟨_, Or.inl rfl, rfl⟩
  · exact Or.inr (Or.inr (Or.inl ⟨h, by rw [if_neg hpow, if_neg halign, dif_neg h]⟩))

/-- A call that returns has got to the system. -/
theorem allocate_eq_attach {sys : System} {nBytes alignSize : Word}
    (hret : (allocate sys st nBytes alignSize).2.1.Returns) :
    ∃ h reported, (reported = [] ∨ reported = [.perror "Too many pages allocated."]) ∧
      allocate sys st nBytes alignSize =
        (reported ++ (attach sys st (pagesFor nBytes) h).1,
          (attach sys st (pagesFor nBytes) h).2) := by
  rcases allocate_cases sys st nBytes alignSize with heq | heq | ⟨-, heq⟩ | hattach
  · rw [heq] at hret
    exact hret.elim
  · rw [heq] at hret
    exact hret.elim
  · rw [heq] at hret
    exact hret.elim
  · exact hattach

/-- **What `allocate` does**, if it returns: it writes the next entry. -/
theorem allocate_returns {sys : System} {nBytes alignSize : Word}
    (hret : (allocate sys st nBytes alignSize).2.1.Returns) :
    ∃ h shmid p, (allocate sys st nBytes alignSize).2 =
      (.returned p, st.record h shmid (pagesFor nBytes) p) := by
  obtain ⟨h, reported, -, heq⟩ := allocate_eq_attach hret
  rw [heq] at hret ⊢
  obtain ⟨shmid, p, hattach⟩ := attach_returns hret
  exact ⟨h, shmid, p, hattach⟩

/-! The entry that `allocate` writes, and the others. -/

section Record

variable {h : st.numSegments < MAX_SEGMENTS} {shmid pages : Int32} {i : Fin MAX_SEGMENTS}

theorem mem_entries_record : i ∈ (st.record h shmid pages p).entries ↔
    i ∈ st.entries ∨ i = ⟨st.numSegments, h⟩ := by
  rw [mem_entries, mem_entries, Fin.ext_iff, Statics.record]
  exact Nat.lt_succ_iff_lt_or_eq

theorem ne_next (hi : i ∈ st.entries) : i ≠ ⟨st.numSegments, h⟩ := by
  intro he
  rw [mem_entries, he] at hi
  exact lt_irrefl _ hi

@[simp] theorem record_shmAddr_next :
    (st.record h shmid pages p).shmAddr ⟨st.numSegments, h⟩ = p := Function.update_self ..

theorem record_shmAddr (hi : i ∈ st.entries) :
    (st.record h shmid pages p).shmAddr i = st.shmAddr i := Function.update_of_ne (ne_next hi) ..

@[simp] theorem record_shmSize_next :
    (st.record h shmid pages p).shmSize ⟨st.numSegments, h⟩ = pages := Function.update_self ..

theorem record_shmSize (hi : i ∈ st.entries) :
    (st.record h shmid pages p).shmSize i = st.shmSize i := Function.update_of_ne (ne_next hi) ..

end Record

/-! ## One live segment -/

/-- The table has a segment at `p`. -/
def Live (st : Statics) (p : Word) : Prop := p ≠ 0 ∧ ∃ i ∈ st.entries, st.shmAddr i = p

instance : Decidable (Live st p) := inferInstanceAs (Decidable (_ ∧ _))

/-- `deallocate` removes the segment at `p`, clears its entry, and does nothing else. -/
def ReleasesOnly (st : Statics) (p : Word) : Prop :=
  ∃ i ∈ st.entries, st.shmAddr i = p ∧
    deallocate st p = ([.rmid (st.shmId i)], { st with shmAddr := Function.update st.shmAddr i 0 })

/-- The call returns. If it returns an address, this is not 0 and not in the table. -/
def Admissible (st : Statics) (c : Call) : Prop :=
  (machine.step st c).1.2.Returns ∧
    ∀ p, (machine.step st c).1.2 = .returned p → p ≠ 0 ∧ ¬ Live st p

theorem admissible_of_returned {c : Call} (hret : (machine.step st c).1.2 = .returned p)
    (hp : p ≠ 0) (hnew : ¬ Live st p) : Admissible st c := by
  refine ⟨hret ▸ trivial, fun q hq => ?_⟩
  obtain rfl : p = q := Outcome.returned.inj (hret.symm.trans hq)
  exact ⟨hp, hnew⟩

/-- No address is in the table twice. -/
def Distinct (st : Statics) : Prop :=
  ∀ i ∈ st.entries, ∀ j ∈ st.entries, st.shmAddr i ≠ 0 → st.shmAddr i = st.shmAddr j → i = j

theorem distinct_record {h : st.numSegments < MAX_SEGMENTS} {shmid pages : Int32}
    (hst : Distinct st) (hp : p ≠ 0) (hnew : ¬ Live st p) :
    Distinct (st.record h shmid pages p) := by
  have hne : ∀ i ∈ st.entries, st.shmAddr i ≠ p := fun i hi he => hnew ⟨hp, i, hi, he⟩
  intro i hi j hj hi0 hij
  rcases mem_entries_record.mp hi with hi | rfl
  · rcases mem_entries_record.mp hj with hj | rfl
    · rw [record_shmAddr hi] at hi0 hij
      rw [record_shmAddr hj] at hij
      exact hst i hi j hj hi0 hij
    · rw [record_shmAddr hi, record_shmAddr_next] at hij
      exact absurd hij (hne i hi)
  · rcases mem_entries_record.mp hj with hj | rfl
    · rw [record_shmAddr hj, record_shmAddr_next] at hij
      exact absurd hij.symm (hne j hj)
    · rfl

theorem distinct_step (st : Statics) (c : Call) (hst : Distinct st) (hc : Admissible st c) :
    Distinct (machine.step st c).2 := by
  cases c with
  | allocate sys nBytes alignSize =>
    obtain ⟨hret, hfresh⟩ := hc
    obtain ⟨h, shmid, p, heq⟩ := allocate_returns hret
    simp only [machine, heq] at hfresh ⊢
    obtain ⟨hp, hnew⟩ := hfresh p rfl
    exact distinct_record hst hp hnew
  | deallocate p =>
    intro i hi j hj hi0 hij
    have hin : i.val < st.numSegments := by simpa [machine, deallocate_eq] using hi
    simp [machine, deallocate_eq, hin] at hi0

/-- The one entry that is not cleared is the one `deallocate` finds. -/
theorem filter_entries {i : Fin MAX_SEGMENTS} (hi : i ∈ st.entries) (hi0 : st.shmAddr i ≠ 0)
    (hall : ∀ j ∈ st.entries, st.shmAddr j ≠ 0 → j = i) :
    st.entries.filter (st.shmAddr · ≠ 0) = [i] := by
  rw [← List.perm_singleton]
  apply (List.perm_ext_iff_of_nodup ((entries_nodup st).filter _) (List.nodup_singleton i)).mpr
  intro j
  rw [List.mem_filter, List.mem_singleton, decide_eq_true_iff]
  constructor
  · exact fun hj => hall j hj.1 hj.2
  · rintro rfl
    exact ⟨hi, hi0⟩

theorem deallocate_single {i : Fin MAX_SEGMENTS} (hi : i ∈ st.entries) (hi0 : st.shmAddr i ≠ 0)
    (hall : ∀ j ∈ st.entries, st.shmAddr j ≠ 0 → j = i) (p : Word) :
    deallocate st p =
      ([.rmid (st.shmId i)], { st with shmAddr := Function.update st.shmAddr i 0 }) := by
  have haddr : (fun j : Fin MAX_SEGMENTS => if j.val < st.numSegments then 0 else st.shmAddr j) =
      Function.update st.shmAddr i 0 := by
    funext j
    by_cases hji : j = i
    · rw [hji, if_pos (mem_entries.mp hi), Function.update_self]
    · rw [Function.update_of_ne hji]
      by_cases hj : j.val < st.numSegments
      · have hj0 : st.shmAddr j = 0 := by
          by_contra hj0
          exact hji (hall j (mem_entries.mpr hj) hj0)
        rw [if_pos hj, hj0]
      · rw [if_neg hj]
  rw [deallocate_eq, filter_entries hi hi0 hall, haddr, List.map_singleton]

/-- **`deallocate` releases only what it is given, exactly if there is nothing else.** In every
table that calls can leave behind, and for every address in it. -/
theorem releasesOnly_iff (calls : List Call) (hok : machine.Along Admissible Statics.init calls)
    (p : Word) (hp : Live (machine.exec Statics.init calls) p) :
    ReleasesOnly (machine.exec Statics.init calls) p ↔
      ∀ q, Live (machine.exec Statics.init calls) q → q = p := by
  have hinit : Distinct Statics.init := fun i hi => absurd hi (by simp [Statics.init])
  have hdist := Machine.exec_invariant distinct_step calls hinit hok
  generalize machine.exec Statics.init calls = st at hp hdist ⊢
  constructor
  · rintro ⟨i, -, hip, heq⟩ q ⟨hq0, j, hj, hjq⟩
    by_contra hne
    have hji : j ≠ i := by
      rintro rfl
      exact hne (hjq.symm.trans hip)
    -- the entry of `q` would have to be kept, and is cleared
    have hcleared : (deallocate st p).2.shmAddr j = 0 := by
      simp [deallocate_eq, mem_entries.mp hj]
    have hkept : (deallocate st p).2.shmAddr j = st.shmAddr j := by
      rw [heq]
      exact Function.update_of_ne hji ..
    exact hq0 (hjq ▸ hkept.symm.trans hcleared)
  · intro honly
    obtain ⟨hp0, i, hi, hip⟩ := hp
    have hall : ∀ j ∈ st.entries, st.shmAddr j ≠ 0 → j = i := by
      intro j hj hj0
      have hjp : st.shmAddr j = p := honly _ ⟨hj0, j, hj, rfl⟩
      exact hdist j hj i hi hj0 (hjp.trans hip.symm)
    exact ⟨i, hi, hip, deallocate_single hi (hip ▸ hp0) hall p⟩

/-- A system that answers with these. -/
def answering (shmid : Int32) (p : Word) : System := ⟨fun _ _ => shmid, fun _ => p⟩

/-- The only segment there is. -/
theorem releasesOnly_one :
    ReleasesOnly (machine.exec Statics.init [.allocate (answering 3 0x200000) 100 8]) 0x200000 := by
  have hok : machine.Along Admissible Statics.init [.allocate (answering 3 0x200000) 100 8] :=
    ⟨admissible_of_returned rfl (by decide) (by decide), trivial⟩
  have hall : ∀ i ∈ (machine.exec Statics.init
      [.allocate (answering 3 0x200000) 100 8]).entries, (machine.exec Statics.init
      [.allocate (answering 3 0x200000) 100 8]).shmAddr i = 0x200000 := by decide
  refine (releasesOnly_iff _ hok _ (by decide)).mpr ?_
  rintro q ⟨-, i, hi, rfl⟩
  exact hall i hi

/-- Of two segments, both are removed. -/
theorem not_releasesOnly_two :
    ¬ ∀ calls : List Call, machine.Along Admissible Statics.init calls →
      ∀ p, Live (machine.exec Statics.init calls) p →
        ReleasesOnly (machine.exec Statics.init calls) p := by
  intro h
  let calls : List Call := [.allocate (answering 3 0x200000) 100 8,
    .allocate (answering 4 0x400000) 100 8]
  have hok : machine.Along Admissible Statics.init calls :=
    ⟨admissible_of_returned rfl (by decide) (by decide),
      admissible_of_returned rfl (by decide) (by decide), trivial⟩
  obtain ⟨i, -, -, heq⟩ := h calls hok 0x200000 (by decide)
  have hboth : (deallocate (machine.exec Statics.init calls) 0x200000).1 = [.rmid 3, .rmid 4] := by
    decide
  rw [heq] at hboth
  exact absurd (congrArg List.length hboth) (by simp)

end HugePage

end DBUtl
