import DBUtl.Lib.Ledger
import Mathlib.Algebra.BigOperators.Group.Multiset.Basic
import Mathlib.Algebra.Order.Group.Multiset
import Mathlib.Data.List.Perm.Basic

/-!
# Tables that exchange

A table of slots: a call takes what is in a slot and puts something else in its place. Whoever
chooses the slots, and in whatever order, what was taken and what is left are what was put in and
what was there.
-/

namespace DBUtl

variable {α : Type*} {n : ℕ}

/-- A call names the slot, and what is put there; the answer is what was there. -/
def exchange (α : Type*) (n : ℕ) : Machine (Vector α n) (Fin n × α) α where
  step T := fun (j, x) => (T[j], T.set j x)

/-- The contents of a table. -/
def contents (T : Vector α n) : Multiset α := T.toList

/-- **One exchange.** -/
theorem cons_contents_set (T : Vector α n) (j : Fin n) (x : α) :
    T[j] ::ₘ contents (T.set j x) = x ::ₘ contents T := by
  have hj : (j : ℕ) < T.toList.length := by simp
  have hset := List.set_perm_cons_eraseIdx hj x
  have hget := List.getElem_cons_eraseIdx_perm hj
  have hperm : (T[j] :: (T.set j x).toList).Perm (x :: T.toList) := by
    have hentry : T[j] = T.toList[j] := by simp
    rw [Vector.toList_set j.isLt, hentry]
    exact (hset.cons _).trans ((List.Perm.swap _ _ _).trans (hget.cons x))
  exact Multiset.coe_eq_coe.2 hperm

/-- **A run of exchanges** neither loses nor duplicates anything. -/
theorem trace_add_contents (T : Vector α n) (calls : List (Fin n × α)) :
    ((exchange α n).trace T calls : Multiset α) + contents ((exchange α n).exec T calls) =
      (calls.map Prod.snd : Multiset α) + contents T := by
  have hsingle (l : List α) : (l.map fun x => ({x} : Multiset α)).sum = l := by
    rw [← Multiset.sum_coe, ← Multiset.map_coe, Multiset.sum_map_singleton]
  have hbal (T : Vector α n) (c : Fin n × α) :
      ({((exchange α n).step T c).1} : Multiset α) + contents ((exchange α n).step T c).2 =
        {c.2} + contents T := cons_contents_set T c.1 c.2
  have hsum := Machine.sum_trace (P := fun _ => True) (fun _ _ _ _ => trivial)
    (fun T c _ _ => hbal T c) calls trivial (Machine.along_of_forall (fun _ _ _ => trivial) T)
  rw [hsingle] at hsum
  rw [hsum, ← hsingle (calls.map Prod.snd), List.map_map]
  rfl

end DBUtl
