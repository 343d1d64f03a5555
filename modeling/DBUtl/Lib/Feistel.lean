import Mathlib.Logic.Equiv.Defs
import Mathlib.Logic.Function.Basic

/-!
# Feistel networks

A round swaps the two halves of a block and changes the half that moves by a permutation chosen
by the half that stays. Whatever the choice, the round can be undone, so a network of rounds is
a permutation of the blocks. Nothing is asked of the function that chooses.
-/

namespace DBUtl.Feistel

variable {W : Type*}

/-- One round: the right half moves left, and the left half is permuted as the right half says. -/
def round (F : W → Equiv.Perm W) : Equiv.Perm (W × W) where
  toFun w := (w.2, F w.2 w.1)
  invFun w := ((F w.1).symm w.2, w.1)
  left_inv w := by simp
  right_inv w := by simp

/-- The rounds of a list, the head first. -/
def network : List (W → Equiv.Perm W) → Equiv.Perm (W × W)
  | [] => Equiv.refl _
  | F :: Fs => (round F).trans (network Fs)

/-- **A loop over rounds is a network**, hence a permutation. -/
theorem foldl_eq_network (Fs : List (W → Equiv.Perm W)) (w : W × W) :
    Fs.foldl (fun w F => round F w) w = network Fs w := by
  induction Fs generalizing w with
  | nil => rfl
  | cons F Fs ih => exact ih _

end DBUtl.Feistel
