import Mathlib.Logic.Function.Iterate
import Mathlib.Data.Vector.Basic

/-!
# Prefetch buffers

A stream has a state `s`, yields `out s`, and moves on to `next s`. A prefetch buffer runs the
stream ahead and keeps the values in a vector that is written from the top slot down and read
from the top slot down, so that values leave in the order in which they came.

`Leads` ties the three together: the unread slots, the state at which a reader stands, and the
state the stream has been run ahead to. Filling establishes it and popping keeps it, so a reader
of the buffer cannot be told from a reader of the stream.
-/

namespace DBUtl.Prefetch

variable {σ α : Type*} {N : ℕ}

/-- The slots below `ix` hold, from the top down, the values of the stream from `s` on, and
`ahead` is the state after the last of them. -/
structure Leads (next : σ → σ) (out : σ → α) (cache : Vector α N) (ix : ℕ) (s ahead : σ) :
    Prop where
  ahead_eq : ahead = next^[ix] s
  slot : ∀ k < ix, cache[ix - 1 - k]? = some (out (next^[k] s))

variable {next : σ → σ} {out : σ → α}

/-- An empty buffer is at the reader's own state. -/
theorem Leads.empty (cache : Vector α N) (s : σ) : Leads next out cache 0 s s :=
  ⟨rfl, fun _ hk => absurd hk (Nat.not_lt_zero _)⟩

theorem Leads.ahead_of_zero {cache : Vector α N} {s ahead : σ}
    (h : Leads next out cache 0 s ahead) : ahead = s := h.ahead_eq

/-- **Popping.** The top unread slot holds the next value, and the rest leads from there. -/
theorem Leads.pop {cache : Vector α N} {ix : ℕ} {s ahead : σ}
    (h : Leads next out cache (ix + 1) s ahead) :
    cache[ix]? = some (out s) ∧ Leads next out cache ix (next s) ahead := by
  refine ⟨h.slot 0 (Nat.succ_pos ix), h.ahead_eq, fun k hk => ?_⟩
  have := h.slot (k + 1) (by omega)
  rwa [show ix + 1 - 1 - (k + 1) = ix - 1 - k by omega] at this

/-- The buffer and the stream after the slots `i - 1` downto `0` have been filled. -/
def fillFrom (next : σ → σ) (out : σ → α) : (i : ℕ) → i ≤ N → Vector α N → σ → Vector α N × σ
  | 0, _, cache, s => (cache, s)
  | i + 1, h, cache, s => fillFrom next out i (Nat.le_of_succ_le h) (cache.set i (out s) h) (next s)

/-- Filling the slots below `i` leaves the others alone. -/
theorem fillFrom_of_le {j : ℕ} : ∀ (i : ℕ) (h : i ≤ N) (cache : Vector α N) (s : σ), i ≤ j →
    (fillFrom next out i h cache s).1[j]? = cache[j]?
  | 0, _, _, _, _ => rfl
  | i + 1, h, cache, s, hj => by
    have hne : i ≠ j := by omega
    rw [fillFrom, fillFrom_of_le i _ _ _ (by omega), Vector.getElem?_set_ne _ hne]

/-- **Filling.** A filled buffer leads from the state the filling started in. -/
theorem leads_fillFrom : ∀ (i : ℕ) (h : i ≤ N) (cache : Vector α N) (s : σ),
    Leads next out (fillFrom next out i h cache s).1 i s (fillFrom next out i h cache s).2
  | 0, _, cache, s => Leads.empty cache s
  | i + 1, h, cache, s => by
    have ih := leads_fillFrom i (Nat.le_of_succ_le h) (cache.set i (out s) h) (next s)
    refine ⟨ih.ahead_eq, fun k hk => ?_⟩
    cases k with
    | zero =>
      show (fillFrom next out i _ (cache.set i (out s) h) (next s)).1[i]? = some (out s)
      rw [fillFrom_of_le i _ _ _ le_rfl, Vector.getElem?_set_self]
    | succ k =>
      rw [show i + 1 - 1 - (k + 1) = i - 1 - k by omega]
      exact ih.slot k (by omega)

end DBUtl.Prefetch
