import Mathlib.Data.Nat.Notation
import Mathlib.Logic.Relation

/-!
# Runs that may abort

A piece of a program ends in a state from which the program goes on, or aborts in a state, or
touches what it may not and has no state to end in. Pieces are put one after another by `bind`, and
repeated by `times`.

Two such runs are compared by two relations, one for the states from which they go on and one for
those in which they abort. A run that `Refines` another does not fault.
-/

namespace DBUtl

/-- How a run ends. -/
inductive Run (α : Type*)
  | done (a : α)
  | aborted (a : α)
  | fault
  deriving DecidableEq

namespace Run

variable {α β : Type*}

def bind (r : Run α) (f : α → Run α) : Run α :=
  match r with
  | done a => f a
  | aborted a => aborted a
  | fault => fault

/-- Go on with the result of a step that can only fault. -/
def need (o : Option β) (f : β → Run α) : Run α :=
  match o with
  | some b => f b
  | none => fault

def times (f : α → Run α) : ℕ → α → Run α
  | 0, a => done a
  | n + 1, a => (f a).bind (times f n)

@[simp] theorem need_some (b : β) (f : β → Run α) : need (some b) f = f b := rfl

/-! ## Comparing runs -/

/-- Both go on, in states that `R` relates, or both abort, in states that `A` relates. -/
inductive Refines (R A : α → β → Prop) : Run α → Run β → Prop
  | done {a : α} {b : β} (h : R a b) : Refines R A (.done a) (.done b)
  | aborted {a : α} {b : β} (h : A a b) : Refines R A (.aborted a) (.aborted b)

namespace Refines

variable {R R' A A' : α → β → Prop} {r : Run α} {r' : Run β}

theorem mono (h : Refines R A r r') (hR : ∀ a b, R a b → R' a b) (hA : ∀ a b, A a b → A' a b) :
    Refines R' A' r r' := by
  cases h with
  | done h => exact .done (hR _ _ h)
  | aborted h => exact .aborted (hA _ _ h)

theorem bind {f : α → Run α} {f' : β → Run β} (h : Refines R A r r')
    (hf : ∀ a b, R a b → Refines R' A (f a) (f' b)) : Refines R' A (r.bind f) (r'.bind f') := by
  cases h with
  | done h => exact hf _ _ h
  | aborted h => exact .aborted h

theorem times {f : α → Run α} {f' : β → Run β}
    (hf : ∀ a b, R a b → Refines R A (f a) (f' b)) (n : ℕ) {a : α} {b : β} (h : R a b) :
    Refines R A (Run.times f n a) (Run.times f' n b) := by
  induction n generalizing a b with
  | zero => exact .done h
  | succ n ih => exact (hf a b h).bind fun a' b' h' => ih h'

theorem symm (h : Refines R A r r') : Refines (fun b a => R a b) (fun b a => A a b) r' r := by
  cases h with
  | done h => exact .done h
  | aborted h => exact .aborted h

theorem trans {γ : Type*} {S B : β → γ → Prop} {r'' : Run γ} (h : Refines R A r r')
    (h' : Refines S B r' r'') : Refines (Relation.Comp R S) (Relation.Comp A B) r r'' := by
  cases h with
  | done h =>
    cases h' with
    | done h' => exact .done ⟨_, h, h'⟩
  | aborted h =>
    cases h' with
    | aborted h' => exact .aborted ⟨_, h, h'⟩

end Refines

end Run

end DBUtl
