import Mathlib.Data.List.Nodup

/-!
# Custody

Things of some kind are made, handed out, and taken back by a keeper who has room for one. This
file has the invariant that accounts for every thing: what there is lies with the keeper or is
out, and nothing is in two places.

* `Custody.take`, `Custody.make` — handing out what was kept, or something new.
* `Custody.keep`, `Custody.discard` — taking back, and keeping it or not.
-/

namespace DBUtl

variable {α : Type*}

/-- What there is lies with the keeper or is out, each thing once. -/
structure Custody (there : List α) (kept : Option α) (out : List α) : Prop where
  nodup : there.Nodup
  perm : there.Perm (kept.toList ++ out)

namespace Custody

variable {there : List α} {kept : Option α} {out : List α} {p c : α}

theorem nil : Custody ([] : List α) none [] := ⟨List.nodup_nil, List.Perm.refl _⟩

/-! ## What it says -/

theorem split (h : Custody there kept out) : (kept.toList ++ out).Nodup :=
  h.perm.nodup_iff.mp h.nodup

theorem out_nodup (h : Custody there kept out) : out.Nodup := h.split.of_append_right

theorem there_of_out (h : Custody there kept out) (hp : p ∈ out) : p ∈ there :=
  h.perm.mem_iff.mpr (List.mem_append_right _ hp)

theorem there_of_kept (h : Custody there (some c) out) : c ∈ there :=
  h.perm.mem_iff.mpr (by simp)

theorem kept_not_out (h : Custody there (some c) out) : c ∉ out := by
  have hsplit := h.split
  simp only [Option.toList_some, List.singleton_append, List.nodup_cons] at hsplit
  exact hsplit.1

theorem not_out_of_not_there (h : Custody there kept out) (hp : p ∉ there) : p ∉ out :=
  fun hout => hp (h.there_of_out hout)

/-- The count of the things. -/
theorem length_eq (h : Custody there kept out) :
    there.length = out.length + if kept.isSome then 1 else 0 := by
  rw [h.perm.length_eq]
  cases kept with
  | none => simp
  | some c => simp

/-! ## Handing out -/

theorem take (h : Custody there (some c) out) : Custody there none (c :: out) :=
  ⟨h.nodup, by simpa using h.perm⟩

theorem make (h : Custody there none out) (hp : p ∉ there) :
    Custody (p :: there) none (p :: out) :=
  ⟨List.nodup_cons.mpr ⟨hp, h.nodup⟩, by simpa using h.perm⟩

/-! ## Taking back -/

variable [BEq α] [LawfulBEq α]

theorem keep (h : Custody there none out) (hp : p ∈ out) :
    Custody there (some p) (out.erase p) := by
  refine ⟨h.nodup, ?_⟩
  have hout : there.Perm out := by simpa using h.perm
  simpa using hout.trans (List.perm_cons_erase hp)

theorem discard (h : Custody there (some c) out) (hp : p ∈ out) :
    Custody (there.erase p) (some c) (out.erase p) := by
  refine ⟨h.nodup.erase p, ?_⟩
  have hne : c ≠ p := fun he => h.kept_not_out (he ▸ hp)
  have herase := h.perm.erase p
  rwa [Option.toList_some, List.singleton_append, List.erase_cons_tail (by simpa using hne)]
    at herase

end Custody

end DBUtl
