import DBUtl.Lib.Checked
import DBUtl.Lib.Machine
import Mathlib.Algebra.Order.Floor.Ring
import Mathlib.Tactic.Linarith

/-!
# Zipf ranks

The class `Zipf` of `zipf.cpp`. A rank below `maxRandom` is made from a draw `u` of the unit
interval, by inverting an approximation of the distribution function: the first two ranks have
branches of their own, the tail has a closed form. Its constants depend on `maxRandom` and `theta`
only. They are kept in static members, and computed anew when a call comes with other parameters.

The arithmetic of `double` is a class, without laws but for the comparisons; `pow` is any function.
A quotient can be undefined. The static members keep what is undefined as `none`, and a call comes
to nothing only if its result depends on such a value. The loop counter of `zeta` is an `int`, whose
overflow is undefined as well. The draw is an argument.
-/

namespace DBUtl

namespace Zipf

/-! ## Arithmetic -/

/-- What `Zipf` asks of `double`. Of the comparisons it asks that nothing is below itself, and that
the equality test tells a positive number from all others. -/
class Arith (R : Type) extends IntCast R, Add R, Sub R, Mul R, LT R, BEq R where
  divide : R → R → Option R
  /-- The literal `0.5`. -/
  half : R
  /-- The conversion to `int`, undefined where the type does not hold the result. -/
  truncate : R → Option ℤ
  decidableLT : DecidableLT R
  not_lt_self : ∀ x : R, ¬ x < x
  eq_of_beq : ∀ {x y : R}, ((0 : ℤ) : R) < x → (x == y) = true → x = y

attribute [reducible, instance] Arith.decidableLT

open Arith (divide half truncate)

/-- Exact arithmetic: a quotient is undefined if the divisor is zero. -/
instance Arith.exact (K : Type) [Field K] [LinearOrder K] [IsStrictOrderedRing K] [FloorRing K] :
    Arith K where
  beq x y := decide (x = y)
  divide x y := if y = 0 then none else some (x / y)
  half := 1 / ((2 : ℤ) : K)
  truncate x := checked 31 (if 0 ≤ x then ⌊x⌋ else ⌈x⌉)
  decidableLT := inferInstance
  not_lt_self := lt_irrefl
  eq_of_beq _ h := of_decide_eq_true h

variable {R : Type} [Arith R] (pow : R → R → R)

/-! ## The constants -/

/-- The loop of `zeta`, at the index `i`. -/
def zetaLoop (n : Int32) (theta : R) (i : ℤ) (ans : R) : Option R :=
  if i ≤ n.toInt then
    (divide ((1 : ℤ) : R) (i : R)).bind fun x =>
      match _h : checked 31 (i + 1) with
      | none => none
      | some i' => zetaLoop n theta i' (ans + pow x theta)
  else some ans
termination_by (n.toInt + 1 - i).toNat
decreasing_by
  have := checked_eq_some _h
  omega

def zeta (n : Int32) (theta : R) : Option R := zetaLoop pow n theta 1 ((0 : ℤ) : R)

/-- The static members. -/
structure Statics (R : Type) where
  theta : R
  zetaN : Option R
  zetaTwo : Option R
  alpha : Option R
  eta : Option R
  maxRandom : Int32

/-- Static members start as zeros. -/
def Statics.init : Statics R :=
  let zero : R := ((0 : ℤ) : R)
  ⟨zero, some zero, some zero, some zero, some zero, 0⟩

/-- The constants for new parameters. -/
def constants (maxRandom : Int32) (theta : R) : Statics R :=
  let one : R := ((1 : ℤ) : R)
  let zetaN := zeta pow maxRandom theta
  let zetaTwo := zeta pow 2 theta
  { theta := theta
    zetaN := zetaN
    zetaTwo := zetaTwo
    alpha := divide one (one - theta)
    eta := do
      let x ← divide ((2 : ℤ) : R) (maxRandom.toInt : R)
      let q ← divide (← zetaTwo) (← zetaN)
      divide (one - pow x (one - theta)) (one - q)
    maxRandom := maxRandom }

/-! ## Drawing a rank -/

/-- The rank that the constants give to the draw `u`. -/
def rank (st : Statics R) (u : R) : Option ℤ := do
  let one : R := ((1 : ℤ) : R)
  let uz := u * (← st.zetaN)
  if uz < one then some 0
  else if uz < one + pow half st.theta then some 1
  else do
    let eta ← st.eta
    let alpha ← st.alpha
    truncate ((st.maxRandom.toInt : R) * pow (eta * u - eta + one) alpha)

/-- How a call of `zipf` ends: it returns, or the assertion aborts the program, or the result
depends on something undefined. -/
inductive Ret
  | returned (r : ℤ)
  | aborted
  | undefined
  deriving DecidableEq

def Ret.ofRank : Option ℤ → Ret
  | some r => .returned r
  | none => .undefined

/-- The static members in front of the draw. -/
def refresh (st : Statics R) (myMaxRandom : Int32) (myTheta : R) : Statics R :=
  if st.maxRandom ≠ myMaxRandom ∨ (myTheta == st.theta) = false then
    constants pow myMaxRandom myTheta
  else st

def zipf (myMaxRandom : Int32) (myTheta u : R) (st : Statics R) : Ret × Statics R :=
  if ((0 : ℤ) : R) < myTheta then
    let st' := refresh pow st myMaxRandom myTheta
    (.ofRank (rank pow st' u), st')
  else (.aborted, st)

/-- A call: `maxRandom`, `theta` and the draw. -/
structure Call (R : Type) where
  maxRandom : Int32
  theta : R
  u : R

def machine : Machine (Statics R) (Call R) Ret where
  step st c := zipf pow c.maxRandom c.theta c.u st

/-! ## The cache -/

/-- A version that computes the constants in every call. -/
def recomputed (c : Call R) : Ret :=
  if ((0 : ℤ) : R) < c.theta then .ofRank (rank pow (constants pow c.maxRandom c.theta) c.u)
  else .aborted

/-- The static members are the zeros of the start, or the constants for the parameters they are
kept with. -/
def Current (st : Statics R) : Prop :=
  st = Statics.init ∨ ∃ n theta, ((0 : ℤ) : R) < theta ∧ st = constants pow n theta

variable {pow}

/-- **What the cache hands out** are the constants for the parameters of the call. -/
theorem refresh_eq {st : Statics R} (h : Current pow st) {theta : R} (hpos : ((0 : ℤ) : R) < theta)
    (n : Int32) : refresh pow st n theta = constants pow n theta := by
  unfold refresh
  split_ifs with hkey
  · rfl
  · simp only [not_or, not_not, Bool.not_eq_false] at hkey
    obtain ⟨hn, htheta⟩ := hkey
    have heq := Arith.eq_of_beq hpos htheta
    rcases h with rfl | ⟨n', theta', -, rfl⟩
    · -- The zeros of the start are the key of no call.
      rw [heq] at hpos
      exact absurd hpos (Arith.not_lt_self _)
    · rw [show n' = n from hn, show theta = theta' from heq]

theorem step_eq {st : Statics R} (h : Current pow st) (c : Call R) :
    ((machine pow).step st c).1 = recomputed pow c ∧ Current pow ((machine pow).step st c).2 := by
  by_cases hpos : ((0 : ℤ) : R) < c.theta
  · have hstep : (machine pow).step st c =
        (.ofRank (rank pow (constants pow c.maxRandom c.theta) c.u),
          constants pow c.maxRandom c.theta) := by
      simp [machine, zipf, hpos, refresh_eq h hpos]
    rw [hstep, recomputed, if_pos hpos]
    exact ⟨rfl, Or.inr ⟨c.maxRandom, c.theta, hpos, rfl⟩⟩
  · have hstep : (machine pow).step st c = (.aborted, st) := by
      simp [machine, zipf, hpos]
    rw [hstep, recomputed, if_neg hpos]
    exact ⟨rfl, h⟩

variable (pow)

theorem current_exec (calls : List (Call R)) :
    Current pow ((machine pow).exec Statics.init calls) :=
  Machine.exec_of_step (P := Current pow) (fun _ c h => (step_eq h c).2) calls (Or.inl rfl)

/-- **The cached constants never change a result.** -/
theorem trace_eq_recomputed (calls : List (Call R)) :
    (machine pow).trace Statics.init calls = calls.map (recomputed pow) :=
  Machine.trace_eq_map (P := Current pow) (fun _ c h => step_eq h c) calls (Or.inl rfl)

end Zipf

end DBUtl
