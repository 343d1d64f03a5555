import Mathlib.Data.List.Basic

/-!
# Machines that answer calls

An object with methods is a `Machine`: in a state it receives a call, answers it, and moves to
the next state. This file has the runs of a machine and the two rules every proof about runs
uses.

* `Machine.Along` — a condition on (state, call) pairs, asked of every call of a run.
* `Machine.exec_invariant` — what one step preserves, a run preserves.
* `Machine.trace_invariant` — and what every answer of such a step satisfies.
* `Machine.along_iff` — a condition on the calls of a run that is exact step by step.
* `Machine.sim_run` — two machines that agree step by step, as long as the condition holds,
  give the same answers over the whole run.
* `Machine.trace_accepted` — an automaton that follows the answers of a machine.
* `Machine.exec_observed` — an observer who sees the calls and the answers.
* `Machine.trace_eq_map` — a machine whose answers do not depend on its state.
-/

namespace DBUtl

/-- A deterministic machine: a state and a call give an answer and the next state. -/
structure Machine (σ ι ο : Type*) where
  step : σ → ι → ο × σ

namespace Machine

variable {σ τ ι ο : Type*}

/-- The state after a list of calls. -/
def exec (M : Machine σ ι ο) (s : σ) : List ι → σ
  | [] => s
  | i :: is => M.exec (M.step s i).2 is

/-- The answers to a list of calls. -/
def trace (M : Machine σ ι ο) (s : σ) : List ι → List ο
  | [] => []
  | i :: is => (M.step s i).1 :: M.trace (M.step s i).2 is

/-- What an observer knows who starts from `t` and sees the calls of a run and the answers. -/
def observe (M : Machine σ ι ο) (see : τ → ι → ο → τ) (s : σ) (t : τ) (is : List ι) : τ :=
  (is.zip (M.trace s is)).foldl (fun t x => see t x.1 x.2) t

/-- Every call of the run satisfies `ok` in the state in which it is made. -/
def Along (M : Machine σ ι ο) (ok : σ → ι → Prop) (s : σ) : List ι → Prop
  | [] => True
  | i :: is => ok s i ∧ M.Along ok (M.step s i).2 is

variable {M : Machine σ ι ο}

@[simp] theorem exec_nil (s : σ) : M.exec s [] = s := rfl

@[simp] theorem exec_cons (s : σ) (i : ι) (is : List ι) :
    M.exec s (i :: is) = M.exec (M.step s i).2 is := rfl

@[simp] theorem trace_nil (s : σ) : M.trace s [] = [] := rfl

@[simp] theorem trace_cons (s : σ) (i : ι) (is : List ι) :
    M.trace s (i :: is) = (M.step s i).1 :: M.trace (M.step s i).2 is := rfl

theorem exec_append (s : σ) (is js : List ι) :
    M.exec s (is ++ js) = M.exec (M.exec s is) js := by
  induction is generalizing s with
  | nil => rfl
  | cons i is ih => exact ih _

theorem trace_append (s : σ) (is js : List ι) :
    M.trace s (is ++ js) = M.trace s is ++ M.trace (M.exec s is) js := by
  induction is generalizing s with
  | nil => rfl
  | cons i is ih => simp [ih]

/-! ## Runs -/

/-- **The invariant rule.** -/
theorem exec_invariant {P : σ → Prop} {ok : σ → ι → Prop}
    (hstep : ∀ s i, P s → ok s i → P (M.step s i).2) :
    ∀ {s : σ} (is : List ι), P s → M.Along ok s is → P (M.exec s is)
  | _, [], h, _ => h
  | _, _ :: is, h, hok => exec_invariant hstep is (hstep _ _ h hok.1) hok.2

/-- The invariant rule, for the answers. -/
theorem trace_invariant {P : σ → Prop} {ok : σ → ι → Prop} {Q : ο → Prop}
    (hstep : ∀ s i, P s → ok s i → Q (M.step s i).1 ∧ P (M.step s i).2) :
    ∀ {s : σ} (is : List ι), P s → M.Along ok s is → ∀ o ∈ M.trace s is, Q o
  | _, [], _, _ => by simp
  | s, i :: is, h, hok => by
    obtain ⟨hout, hnext⟩ := hstep s i h hok.1
    rw [trace_cons, List.forall_mem_cons]
    exact ⟨hout, trace_invariant hstep is hnext hok.2⟩

/-- The invariant rule, when every call is admitted. -/
theorem exec_of_step {P : σ → Prop} (hstep : ∀ s i, P s → P (M.step s i).2) {s : σ} (is : List ι)
    (h : P s) : P (M.exec s is) := by
  induction is generalizing s with
  | nil => exact h
  | cons i is ih => exact ih (hstep s i h)

/-- What no step changes, no run changes. -/
theorem exec_eq_of_step {α : Type*} {f : σ → α} (hstep : ∀ s i, f (M.step s i).2 = f s) (s : σ)
    (is : List ι) : f (M.exec s is) = f s :=
  exec_of_step (P := fun t => f t = f s) (fun t i h => (hstep t i).trans h) is rfl

/-- A condition on the calls alone holds along every run that makes only such calls. -/
theorem along_of_forall {ok : σ → ι → Prop} {is : List ι} (h : ∀ i ∈ is, ∀ s, ok s i) (s : σ) :
    M.Along ok s is := by
  induction is generalizing s with
  | nil => trivial
  | cons i is ih =>
    exact ⟨h i List.mem_cons_self s, ih (fun j hj => h j (List.mem_cons_of_mem _ hj)) _⟩

theorem Along.left {ok : σ → ι → Prop} :
    ∀ {s : σ} {is js : List ι}, M.Along ok s (is ++ js) → M.Along ok s is
  | _, [], _, _ => trivial
  | _, _ :: _, _, h => ⟨h.1, Along.left h.2⟩

theorem Along.right {ok : σ → ι → Prop} {s : σ} {is js : List ι} (h : M.Along ok s (is ++ js)) :
    M.Along ok (M.exec s is) js := by
  induction is generalizing s with
  | nil => exact h
  | cons i is ih => exact ih h.2

theorem Along.and {ok ok' : σ → ι → Prop} :
    ∀ {s : σ} {is : List ι}, M.Along ok s is → M.Along ok' s is →
      M.Along (fun s i => ok s i ∧ ok' s i) s is
  | _, [], _, _ => trivial
  | _, _ :: _, h, h' => ⟨⟨h.1, h'.1⟩, Along.and h.2 h'.2⟩

/-- **The rule of exactness.** If a step keeps `P` exactly when it meets `C`, then a run is in `P`
all the way exactly when all its calls meet `C`. -/
theorem along_iff {I P : σ → Prop} {ok C : σ → ι → Prop}
    (hinv : ∀ s i, I s → ok s i → I (M.step s i).2)
    (hstep : ∀ s i, I s → P s → ok s i → (P (M.step s i).2 ↔ C s i)) :
    ∀ {s : σ} (is : List ι), I s → P s → M.Along ok s is →
      ((∀ pre, pre <+: is → P (M.exec s pre)) ↔ M.Along C s is)
  | s, [], _, hP, _ => by simpa [Along] using hP
  | s, i :: is, hI, hP, hok => by
    have hnext := hstep s i hI hP hok.1
    constructor
    · intro hall
      have hPi : P (M.step s i).2 := hall [i] (by simp)
      refine ⟨hnext.mp hPi, ?_⟩
      apply (along_iff hinv hstep is (hinv s i hI hok.1) hPi hok.2).mp
      intro pre hpre
      exact hall (i :: pre) (List.cons_prefix_cons.mpr ⟨rfl, hpre⟩)
    · intro hC pre hpre
      have hPi : P (M.step s i).2 := hnext.mpr hC.1
      rcases List.prefix_cons_iff.mp hpre with rfl | ⟨t, rfl, ht⟩
      · exact hP
      · exact (along_iff hinv hstep is (hinv s i hI hok.1) hPi hok.2).mpr hC.2 t ht

/-- **The simulation rule.** If related states answer every admissible call alike and stay
related, then the two runs give the same answers and end in related states. -/
theorem sim_run {N : Machine τ ι ο} {R : σ → τ → Prop} {ok : σ → ι → Prop}
    (hstep : ∀ s t i, R s t → ok s i →
      (M.step s i).1 = (N.step t i).1 ∧ R (M.step s i).2 (N.step t i).2) :
    ∀ {s : σ} {t : τ} (is : List ι), R s t → M.Along ok s is →
      M.trace s is = N.trace t is ∧ R (M.exec s is) (N.exec t is)
  | _, _, [], h, _ => ⟨rfl, h⟩
  | s, t, i :: is, h, hok => by
    obtain ⟨hout, hrel⟩ := hstep s t i h hok.1
    obtain ⟨htr, hend⟩ := sim_run hstep is hrel hok.2
    exact ⟨by rw [trace_cons, trace_cons, hout, htr], hend⟩

/-- **The rule of acceptance.** If every answer moves an automaton on, between states that belong to
those of the machine, then the automaton accepts the answers of every run. -/
theorem trace_accepted {R : σ → τ → Prop} {ok : σ → ι → Prop} {next : τ → ο → Option τ}
    (hstep : ∀ s t i, R s t → ok s i →
      ∃ t', next t (M.step s i).1 = some t' ∧ R (M.step s i).2 t') :
    ∀ {s : σ} {t : τ} (is : List ι), R s t → M.Along ok s is →
      ∃ t', (M.trace s is).foldlM next t = some t' ∧ R (M.exec s is) t'
  | _, t, [], h, _ => ⟨t, rfl, h⟩
  | s, t, i :: is, h, hok => by
    obtain ⟨t', hnext, h'⟩ := hstep s t i h hok.1
    obtain ⟨t'', hrun, h''⟩ := trace_accepted hstep is h' hok.2
    exact ⟨t'', by simp [hnext, hrun], h''⟩

/-- **The rule of observation.** If what an observer makes of a call and its answer goes along with
the step, then what it knows after a run goes along with the state. -/
theorem exec_observed {R : σ → τ → Prop} {ok : σ → ι → Prop} {see : τ → ι → ο → τ}
    (hstep : ∀ s t i, R s t → ok s i → R (M.step s i).2 (see t i (M.step s i).1)) :
    ∀ {s : σ} {t : τ} (is : List ι), R s t → M.Along ok s is →
      R (M.exec s is) (M.observe see s t is)
  | _, _, [], h, _ => h
  | s, t, i :: is, h, hok => exec_observed hstep is (hstep s t i h hok.1) hok.2

/-- **The rule of transparency.** If, under an invariant, an answer does not depend on the state,
then a run answers call by call. -/
theorem trace_eq_map {P : σ → Prop} {f : ι → ο}
    (hstep : ∀ s i, P s → (M.step s i).1 = f i ∧ P (M.step s i).2) :
    ∀ {s : σ} (is : List ι), P s → M.trace s is = is.map f
  | _, [], _ => rfl
  | s, i :: is, h => by
    obtain ⟨hout, hP⟩ := hstep s i h
    rw [trace_cons, hout, trace_eq_map hstep is hP, List.map_cons]

end Machine

end DBUtl
