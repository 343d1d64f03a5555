import DBUtl.Lib.Machine
import Mathlib.Algebra.BigOperators.Group.List.Basic
import Mathlib.Data.List.Perm.Basic

/-!
# Ledgers

Calls bring something into a machine and answers take it out: tokens, bytes, blocks. A stock in
the state that balances one step balances a whole run.

Where the stock is a list, `perm_cons_eraseP` takes out the first entry of a kind.
-/

namespace DBUtl

theorem perm_cons_eraseP {α : Type*} {p : α → Bool} {a : α} {l : List α}
    (h : l.find? p = some a) : l.Perm (a :: l.eraseP p) := by
  obtain ⟨hpa, l₁, l₂, rfl, hl₁⟩ := List.find?_eq_some_iff_append.mp h
  rw [List.eraseP_append_right _ (by simpa using hl₁), List.eraseP_cons_of_pos hpa]
  exact List.perm_middle

namespace Machine

variable {σ ι ο A : Type*} [AddCommMonoid A] {M : Machine σ ι ο}

/-- **The conservation rule.** If every step from a state of the invariant balances, what the
answers took out of a run and what is left are what the calls brought in and what was there. -/
theorem sum_trace {P : σ → Prop} {ok : σ → ι → Prop} {paid : ο → A} {brought : ι → A}
    {stock : σ → A} (hstep : ∀ s i, P s → ok s i → P (M.step s i).2)
    (hbal : ∀ s i, P s → ok s i →
      paid (M.step s i).1 + stock (M.step s i).2 = brought i + stock s) :
    ∀ {s : σ} (is : List ι), P s → M.Along ok s is →
      ((M.trace s is).map paid).sum + stock (M.exec s is) = (is.map brought).sum + stock s
  | _, [], _, _ => by simp
  | s, i :: is, h, hok => by
    have ih := sum_trace hstep hbal is (hstep s i h hok.1) hok.2
    rw [trace_cons, exec_cons, List.map_cons, List.sum_cons, List.map_cons, List.sum_cons,
      add_assoc, ih, add_left_comm, hbal s i h hok.1, add_left_comm, add_assoc]

end Machine

end DBUtl
