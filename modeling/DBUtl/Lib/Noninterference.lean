import DBUtl.Lib.Machine
import Mathlib.Logic.Basic

/-!
# Objects that share state

A machine serves several objects: a call names its object. The calls on one object are not
interfered with by the others if the answers to them, in a run of all calls, are those of the run
of these calls alone.

* `Machine.own_related` — a relation that a call on another object keeps on one side, and a call on
  the object on both, holds between the two runs.
* `Machine.answers_eq_iff` — the answers are the same exactly if they are the same call by call.
-/

namespace DBUtl

namespace Machine

variable {σ ι κ ο : Type*} [DecidableEq ι]

/-- The calls on object `i`. -/
def own (i : ι) (calls : List (ι × κ)) : List (ι × κ) := calls.filter (·.1 = i)

/-- The answers to the calls on object `i`, in a run of all calls. -/
def answers (M : Machine σ (ι × κ) ο) (i : ι) (s : σ) : List (ι × κ) → List ο
  | [] => []
  | c :: calls =>
    if c.1 = i then (M.step s c).1 :: M.answers i (M.step s c).2 calls
    else M.answers i (M.step s c).2 calls

variable {M : Machine σ (ι × κ) ο} {i : ι}

@[simp] theorem own_nil : own i ([] : List (ι × κ)) = [] := rfl

theorem own_cons_of_eq {c : ι × κ} (h : c.1 = i) (calls : List (ι × κ)) :
    own i (c :: calls) = c :: own i calls := List.filter_cons_of_pos (by simpa using h)

theorem own_cons_of_ne {c : ι × κ} (h : c.1 ≠ i) (calls : List (ι × κ)) :
    own i (c :: calls) = own i calls := List.filter_cons_of_neg (by simpa using h)

/-- **The unwinding rule.** -/
theorem own_related {R : σ → σ → Prop}
    (hother : ∀ s t c, c.1 ≠ i → R s t → R (M.step s c).2 t)
    (hown : ∀ s t c, c.1 = i → R s t → R (M.step s c).2 (M.step t c).2) :
    ∀ {s t : σ} (calls : List (ι × κ)), R s t → R (M.exec s calls) (M.exec t (own i calls))
  | _, _, [], h => h
  | s, t, c :: calls, h => by
    by_cases hc : c.1 = i
    · rw [own_cons_of_eq hc]
      exact own_related hother hown calls (hown s t c hc h)
    · rw [own_cons_of_ne hc]
      exact own_related hother hown calls (hother s t c hc h)

omit [DecidableEq ι] in
/-- A split of `c :: calls` is one before `c`, or one of `calls` with `c` in front. -/
theorem forall_split_cons {p : List (ι × κ) → ι × κ → Prop} {c : ι × κ} {calls : List (ι × κ)} :
    (∀ pre d post, c :: calls = pre ++ d :: post → d.1 = i → p pre d) ↔
      (c.1 = i → p [] c) ∧ ∀ pre d post, calls = pre ++ d :: post → d.1 = i → p (c :: pre) d := by
  constructor
  · intro h
    exact ⟨h [] c calls rfl, fun pre d post heq => h (c :: pre) d post (by rw [heq]; rfl)⟩
  · rintro ⟨hhead, htail⟩ pre d post heq
    cases pre with
    | nil =>
      obtain ⟨rfl, -⟩ := List.cons.inj heq
      exact hhead
    | cons c' pre =>
      obtain ⟨rfl, hcalls⟩ := List.cons.inj heq
      exact htail pre d post hcalls

/-- The answers to the calls on `i` are those of the run of these calls alone, if and only if this
holds of each of them, after whatever calls come before it. -/
theorem answers_eq_iff {s t : σ} {calls : List (ι × κ)} :
    M.answers i s calls = M.trace t (own i calls) ↔
      ∀ pre c post, calls = pre ++ c :: post → c.1 = i →
        (M.step (M.exec s pre) c).1 = (M.step (M.exec t (own i pre)) c).1 := by
  induction calls generalizing s t with
  | nil => simp [answers]
  | cons c calls ih =>
    rw [forall_split_cons (p := fun pre d =>
      (M.step (M.exec s pre) d).1 = (M.step (M.exec t (own i pre)) d).1)]
    by_cases hc : c.1 = i
    · rw [answers, if_pos hc, own_cons_of_eq hc, trace_cons, List.cons.injEq, ih]
      simp [hc, own_cons_of_eq hc]
    · rw [answers, if_neg hc, own_cons_of_ne hc, ih]
      simp [hc, own_cons_of_ne hc]

end Machine

end DBUtl
