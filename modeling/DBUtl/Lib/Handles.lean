import Mathlib.Logic.Function.Basic

/-!
# Resources behind handles

Resources lie in a table, under handles, and the holders have handles. What a holder sees is the
resource behind its handle. When no two holders have the same handle, and nobody else has one of
theirs, the table does not show: whatever is done through one holder's handle changes what that
holder sees and nothing else.

`Owned` is the invariant. Its three rules are for a holder who gets a handle, who writes through it,
and who gives it back. `others` are the resources that are nobody's.
-/

namespace DBUtl

variable {ι δ ρ : Type*}

/-- What the holders see. -/
def viewOf (table : δ → Option ρ) (held : ι → Option δ) (i : ι) : Option ρ := (held i).bind table

structure Owned (others table : δ → Option ρ) (held : ι → Option δ) : Prop where
  there : ∀ i d, held i = some d → ∃ r, table d = some r
  inj : ∀ i j d, held i = some d → held j = some d → i = j
  foreign : ∀ i d, held i = some d → others d = none
  frame : ∀ d, (∀ i, held i ≠ some d) → table d = others d

namespace Owned

variable {others table : δ → Option ρ} {held : ι → Option δ} {i : ι} {d : δ} {r : ρ}

theorem nobody (others : δ → Option ρ) : Owned others others fun _ : ι => none where
  there _ _ h := nomatch h
  inj _ _ _ h := nomatch h
  foreign _ _ h := nomatch h
  frame _ _ := rfl

/-- A handle that is not in the table is nobody's. -/
theorem not_held (h : Owned others table held) (hd : table d = none) (j : ι) : held j ≠ some d := by
  intro hj
  obtain ⟨r, hr⟩ := h.there j d hj
  rw [hd] at hr
  cases hr

variable [DecidableEq δ]

/-- Writing through a handle. -/
theorem write (h : Owned others table held) (hi : held i = some d) (r : ρ) :
    Owned others (Function.update table d (some r)) held where
  there j e hj := by
    by_cases he : e = d
    · exact ⟨r, by rw [he, Function.update_self]⟩
    · rw [Function.update_of_ne he]
      exact h.there j e hj
  inj := h.inj
  foreign := h.foreign
  frame e he := by
    have hne : e ≠ d := fun hed => he i (hed ▸ hi)
    rw [Function.update_of_ne hne]
    exact h.frame e he

variable [DecidableEq ι]

theorem view_write (h : Owned others table held) (hi : held i = some d) (r : ρ) :
    viewOf (Function.update table d (some r)) held =
      Function.update (viewOf table held) i (some r) := by
  funext j
  by_cases hj : j = i
  · subst hj
    simp [viewOf, hi]
  · rw [Function.update_of_ne hj]
    cases he : held j with
    | none => simp [viewOf, he]
    | some e =>
      have hne : e ≠ d := fun hed => hj (h.inj j i d (hed ▸ he) hi)
      simp [viewOf, he, Function.update_of_ne hne]

/-- Getting a handle. -/
theorem acquire (h : Owned others table held) (hi : held i = none) (hd : table d = none) (r : ρ) :
    Owned others (Function.update table d (some r)) (Function.update held i (some d)) where
  there j e hj := by
    by_cases he : e = d
    · exact ⟨r, by rw [he, Function.update_self]⟩
    · have hji : j ≠ i := by
        rintro rfl
        rw [Function.update_self] at hj
        exact he (Option.some.inj hj).symm
      rw [Function.update_of_ne hji] at hj
      rw [Function.update_of_ne he]
      exact h.there j e hj
  inj j k e hj hk := by
    by_cases hji : j = i
    · by_cases hki : k = i
      · rw [hji, hki]
      · rw [hji, Function.update_self] at hj
        rw [Function.update_of_ne hki, ← Option.some.inj hj] at hk
        exact absurd hk (h.not_held hd k)
    · rw [Function.update_of_ne hji] at hj
      by_cases hki : k = i
      · rw [hki, Function.update_self] at hk
        rw [← Option.some.inj hk] at hj
        exact absurd hj (h.not_held hd j)
      · rw [Function.update_of_ne hki] at hk
        exact h.inj j k e hj hk
  foreign j e hj := by
    by_cases hji : j = i
    · rw [hji, Function.update_self] at hj
      rw [← Option.some.inj hj, ← h.frame d (h.not_held hd), hd]
    · rw [Function.update_of_ne hji] at hj
      exact h.foreign j e hj
  frame e he := by
    have hne : e ≠ d := by
      rintro rfl
      exact he i (Function.update_self ..)
    rw [Function.update_of_ne hne]
    refine h.frame e fun j hj => ?_
    have hji : j ≠ i := by
      rintro rfl
      rw [hi] at hj
      cases hj
    exact he j (by rwa [Function.update_of_ne hji])

theorem view_acquire (h : Owned others table held) (hd : table d = none) (r : ρ) :
    viewOf (Function.update table d (some r)) (Function.update held i (some d)) =
      Function.update (viewOf table held) i (some r) := by
  funext j
  by_cases hj : j = i
  · subst hj
    simp [viewOf]
  · rw [Function.update_of_ne hj]
    cases he : held j with
    | none => simp [viewOf, Function.update_of_ne hj, he]
    | some e =>
      have hne : e ≠ d := fun hed => h.not_held hd j (hed ▸ he)
      simp [viewOf, Function.update_of_ne hj, he, Function.update_of_ne hne]

/-- Giving it back. -/
theorem release (h : Owned others table held) (hi : held i = some d) :
    Owned others (Function.update table d none) (Function.update held i none) := by
  have hother : ∀ j e, Function.update held i none j = some e →
      j ≠ i ∧ held j = some e ∧ e ≠ d := by
    intro j e hj
    have hji : j ≠ i := by
      rintro rfl
      rw [Function.update_self] at hj
      cases hj
    rw [Function.update_of_ne hji] at hj
    exact ⟨hji, hj, fun hed => hji (h.inj j i d (hed ▸ hj) hi)⟩
  refine ⟨fun j e hj => ?_, fun j k e hj hk => ?_, fun j e hj => ?_, fun e he => ?_⟩
  · obtain ⟨-, hheld, hne⟩ := hother j e hj
    rw [Function.update_of_ne hne]
    exact h.there j e hheld
  · exact h.inj j k e (hother j e hj).2.1 (hother k e hk).2.1
  · exact h.foreign j e (hother j e hj).2.1
  · by_cases hne : e = d
    · rw [hne, Function.update_self, h.foreign i d hi]
    · rw [Function.update_of_ne hne]
      refine h.frame e fun j hj => ?_
      have hji : j ≠ i := by
        rintro rfl
        rw [hi] at hj
        exact hne (Option.some.inj hj).symm
      exact he j (by rwa [Function.update_of_ne hji])

theorem view_release (h : Owned others table held) (hi : held i = some d) :
    viewOf (Function.update table d none) (Function.update held i none) =
      Function.update (viewOf table held) i none := by
  funext j
  by_cases hj : j = i
  · subst hj
    simp [viewOf]
  · rw [Function.update_of_ne hj]
    cases he : held j with
    | none => simp [viewOf, Function.update_of_ne hj, he]
    | some e =>
      have hne : e ≠ d := fun hed => hj (h.inj j i d (hed ▸ he) hi)
      simp [viewOf, Function.update_of_ne hj, he, Function.update_of_ne hne]

end Owned

end DBUtl
