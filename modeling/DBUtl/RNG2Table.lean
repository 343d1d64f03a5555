import DBUtl.Lib.Exchange
import DBUtl.RNG2Proof

/-!
# The shuffle table of `RNG2` loses nothing

A draw takes an entry of the table, whose slot the draw before has chosen, and puts the new value of
the first generator in its place. Whatever the slots are, a table that exchanges loses and
duplicates nothing. What it starts with are the last 32 of the values the constructor steps through,
loaded from the top down.
-/

namespace DBUtl

namespace RNG2

/-- The values of `idum` in `k` steps of the first generator, as the loop of the constructor makes
them. -/
def idums : (k : ℕ) → (idum : ℤ) → Option (List ℤ)
  | 0, _ => some []
  | k + 1, idum => do
    let idum' ← stepIdum idum
    let rest ← idums k idum'
    some (idum' :: rest)

/-- `iy` after a draw that has read `entry`. -/
def newIy (entry idum2 : ℤ) : ℤ :=
  if entry - idum2 < 1 then entry - idum2 + IMM1 else entry - idum2

/-! ## What a draw does -/

/-- The draw that leads from `g` to `g'` reads slot `j` into `iy`, and writes it. -/
structure Draws (g g' : RNG2) (j : Fin NTAB) : Prop where
  slot : g.iy.tdiv NDIV = j
  idum : stepIdum g.idum = some g'.idum
  idum2 : stepIdum2 g.idum2 = some g'.idum2
  iy : g'.iy = newIy g.iv[j] g'.idum2
  iv : g'.iv = g.iv.set j g'.idum

/-- **Every draw** that meets no overflow is of this kind. -/
theorem draws_of_rand {g g' : RNG2} {x : ℚ} (h : g.rand = some (x, g')) :
    ∃ j, Draws g g' j := by
  simp only [rand, Option.bind_eq_bind, Option.bind_eq_some_iff] at h
  obtain ⟨idum, hidum, idum2, hidum2, j, hj, h⟩ := h
  split_ifs at h with hslot
  obtain rfl := checked_eq_some hj
  rw [Option.bind_eq_some_iff] at h
  obtain ⟨diff, hdiff, h⟩ := h
  obtain rfl := checked_eq_some hdiff
  have hlt := hslot.2
  have hiy : g'.iy = newIy g.iv[(g.iy.tdiv NDIV).toNat] idum2 ∧ g'.idum = idum ∧
      g'.idum2 = idum2 ∧ g'.iv = g.iv.set (g.iy.tdiv NDIV).toNat idum := by
    split_ifs at h with hneg
    · rw [Option.bind_eq_some_iff] at h
      obtain ⟨iy, hiy, h⟩ := h
      obtain ⟨-, rfl⟩ := Prod.mk.inj (Option.some.inj h)
      exact ⟨by simpa [newIy, hneg] using checked_eq_some hiy, rfl, rfl, rfl⟩
    · obtain ⟨-, rfl⟩ := Prod.mk.inj (Option.some.inj h)
      exact ⟨by simp [newIy, hneg], rfl, rfl, rfl⟩
  obtain ⟨hiy, rfl, rfl, hiv⟩ := hiy
  exact ⟨⟨_, hslot.2⟩, (Int.toNat_of_nonneg hslot.1).symm, hidum, hidum2, hiy, hiv⟩

/-! ## The loaded table -/

theorem idums_seqX {m : ℤ} (hm : Fits 31 m) (k i : ℕ) :
    idums k (seqX m i) = some ((List.range k).map fun l => seqX m (i + l + 1)) := by
  induction k generalizing i with
  | zero => rfl
  | succ k ih =>
    simp only [idums, stepIdum_seqX hm, ih, Option.bind_eq_bind, Option.bind_some,
      List.range_succ_eq_map, List.map_cons, List.map_map]
    congr 3
    funext l
    simp [Nat.add_comm, Nat.add_left_comm]

/-- The table is loaded with the last 32 values, from the top down. -/
theorem contents_loaded {m : ℤ} {iv : Vector ℤ NTAB}
    (hiv : ∀ (j : ℕ) (hj : j < 32), iv[j] = seqX m (40 - j)) :
    contents iv = (((List.range 40).map fun l => seqX m (0 + l + 1)).drop 8 : List ℤ) := by
  have hrev : iv.toList = (((List.range 40).map fun l => seqX m (0 + l + 1)).drop 8).reverse := by
    refine List.ext_getElem (by simp) fun j hj _ => ?_
    have hj32 : j < 32 := by simpa using hj
    rw [Vector.getElem_toList, hiv j hj32]
    simp only [List.getElem_reverse, List.getElem_drop, List.getElem_map, List.getElem_range]
    congr 1
    simp
    omega
  rw [contents, hrev]
  exact Multiset.coe_reverse _

/-! ## Runs -/

section Run

variable {g : ℕ → RNG2} {j : ℕ → Fin NTAB}

/-- The entries that the first `n` draws of a run read. -/
def entries (g : ℕ → RNG2) (j : ℕ → Fin NTAB) (n : ℕ) : List ℤ :=
  (List.range n).map fun i => (g i).iv[j i]

/-- The values of `idum` that they produce. -/
def produced (g : ℕ → RNG2) (n : ℕ) : List ℤ := (List.range n).map fun i => (g (i + 1)).idum

/-- What the first `n` draws call on the table. -/
def exchanges (g : ℕ → RNG2) (j : ℕ → Fin NTAB) (n : ℕ) : List (Fin NTAB × ℤ) :=
  (List.range n).map fun i => (j i, (g (i + 1)).idum)

theorem map_snd_exchanges (n : ℕ) : (exchanges g j n).map Prod.snd = produced g n := by
  rw [exchanges, List.map_map]
  rfl

/-- **The table of a run exchanges.** -/
theorem exchange_run (h : ∀ i, Draws (g i) (g (i + 1)) (j i)) (n : ℕ) :
    (exchange ℤ NTAB).exec (g 0).iv (exchanges g j n) = (g n).iv ∧
      (exchange ℤ NTAB).trace (g 0).iv (exchanges g j n) = entries g j n := by
  induction n with
  | zero => exact ⟨rfl, rfl⟩
  | succ n ih =>
    obtain ⟨hexec, htrace⟩ := ih
    have hcalls : exchanges g j (n + 1) = exchanges g j n ++ [(j n, (g (n + 1)).idum)] := by
      simp [exchanges, List.range_succ]
    have hentries : entries g j (n + 1) = entries g j n ++ [(g n).iv[j n]] := by
      simp [entries, List.range_succ]
    rw [hcalls, hentries, Machine.exec_append, Machine.trace_append, hexec, htrace]
    exact ⟨(h n).iv.symm, rfl⟩

end Run

/-- **The shuffle table neither loses nor duplicates values.** After any number of draws, what is in
the table and what the draws have read are the last 32 values that the constructor has produced and
the values that the draws have. So no value is read more often than it was produced. -/
theorem table_conserved (raw : Vector ℤ NTAB) (seed : Int32) :
    ∃ (g : ℕ → RNG2) (j : ℕ → Fin NTAB) (loaded : List ℤ),
      new raw seed = some (g 0) ∧ (∀ i, ∃ x, (g i).rand = some (x, g (i + 1))) ∧
      (∀ i, Draws (g i) (g (i + 1)) (j i)) ∧
      idums (NTAB + 8) (magnitude seed).toInt = some loaded ∧
      ∀ n, contents (g n).iv + (entries g j n : Multiset ℤ) =
          (loaded.drop 8 : Multiset ℤ) + (produced g n : Multiset ℤ) ∧
        (entries g j n : Multiset ℤ) ≤
          (loaded.drop 8 : Multiset ℤ) + (produced g n : Multiset ℤ) := by
  have hm := fits_toInt (magnitude seed)
  obtain ⟨g₀, hnew, h₀⟩ := tracks_new raw seed
  choose g hafter htracks using tracks_after hnew
  have hzero : g 0 = g₀ := (Option.some.inj (hafter 0)).symm
  have hrand : ∀ i, ∃ x, (g i).rand = some (x, g (i + 1)) := by
    intro i
    obtain ⟨g', hrand, -⟩ := tracks_rand hm (htracks i)
    have hnext : g₀.after (i + 1) = some g' := by simp [after, hafter i, hrand]
    obtain rfl : g' = g (i + 1) := Option.some.inj (hnext.symm.trans (hafter (i + 1)))
    exact ⟨_, hrand⟩
  choose j hdraws using fun i => draws_of_rand (hrand i).choose_spec
  have hiv : ∀ (k : ℕ) (hk : k < 32), (g 0).iv[k] = seqX (magnitude seed).toInt (40 - k) := by
    rw [hzero]
    exact h₀.iv
  have hloaded := contents_loaded hiv
  refine ⟨g, j, _, hzero ▸ hnew, hrand, hdraws, idums_seqX hm (NTAB + 8) 0, fun n => ?_⟩
  have hledger := trace_add_contents (g 0).iv (exchanges g j n)
  rw [(exchange_run hdraws n).1, (exchange_run hdraws n).2, map_snd_exchanges, hloaded] at hledger
  have hbalance : contents (g n).iv + (entries g j n : Multiset ℤ) =
      _ + (produced g n : Multiset ℤ) :=
    (add_comm _ _).trans (hledger.trans (add_comm _ _))
  exact ⟨hbalance, hbalance ▸ Multiset.le_add_left _ _⟩

end RNG2

end DBUtl
