import DBUtl.Thread
import Mathlib.Data.List.Induction

/-!
# Every start is one call of `run`

Threads of the system have identifiers that are used again, and any thread of the program may take
the next step. An awaited object owns the identifier of its thread, so that the thread behind it is
its own, has it as its argument, and is as far as the object's call of `run` is.

* `Inv` — the invariant.
* `Changes` — what one step does: it changes one object and its thread.
* `threads_follow` — the result: every object lives as it should, in every interleaving of clients
  that keep the discipline of `Admissible`.
* `join_returns_iff` — when a join returns: exactly when its thread has taken its three steps.
-/

namespace DBUtl

namespace Threads

variable {V : Type*}

/-! ## The thread of an object -/

/-- The identifier that an object owns: that of its thread, as long as it is awaited. -/
def held (w : Program V) (p : Pointer) : Option Tid :=
  if w.awaited p then (w.objects p).bind Thread.pthreadThreadID else none

def threadOf (w : Program V) : Pointer → Option PThread := viewOf w.threads (held w)

/-- Where the call of `run` is, by the thread. -/
def phaseAt (result : Option V) : Option PThread → TaskPhase V
  | none => .idle
  | some th =>
    match th.phase, result with
    | .created, _ => .started
    | .inRun, _ => .running
    | .stored, some v => .stored v
    | .ended, some v => .ended v
    | .stored, none | .ended, none => .idle

def taskAt (o : Option (Thread V)) (th : Option PThread) : Task V :=
  match o with
  | none => .absent
  | some t => .present t.runnable t.detached (phaseAt t.result th)

def taskOf (w : Program V) (p : Pointer) : Task V := taskAt (w.objects p) (threadOf w p)

/-- The thread is the object's. -/
structure Fits (p : Pointer) (t : Thread V) (th : PThread) : Prop where
  arg : th.arg = p
  detached : th.detached = t.detached
  routine : th.routine = routineFor t.runnable
  result : th.phase = .stored ∨ th.phase = .ended → t.result.isSome
  ended : th.phase = .ended → th.detached = false

/-- A runnable is called when there is one. -/
theorem Fits.runs {p : Pointer} {t : Thread V} {th : PThread} (h : Fits p t th) :
    ¬ (th.routine = .startThreadRunnable ∧ t.runnable = false) := by
  rintro ⟨hroutine, hnone⟩
  rw [h.routine, routineFor, hnone] at hroutine
  cases hroutine

structure Inv (w : Program V) : Prop where
  owned : Owned (fun _ => none) w.threads (held w)
  fits : ∀ p th, threadOf w p = some th → ∃ t, w.objects p = some t ∧ Fits p t th
  awaited : ∀ p, w.awaited p = (threadOf w p).isSome

theorem Inv.init : Inv (Program.init : Program V) where
  owned := Owned.nobody _
  fits _ _ h := nomatch h
  awaited _ := rfl

namespace Inv

variable {w : Program V} {p : Pointer} {tid : Tid} {th : PThread}

theorem of_awaited (h : Inv w) (hp : w.awaited p = true) :
    ∃ t tid th, w.objects p = some t ∧ t.pthreadThreadID = some tid ∧ held w p = some tid ∧
      w.threads tid = some th ∧ threadOf w p = some th ∧ Fits p t th := by
  rw [h.awaited] at hp
  obtain ⟨th, hth⟩ := Option.isSome_iff_exists.mp hp
  obtain ⟨t, ht, hfits⟩ := h.fits p th hth
  have hth' := hth
  simp only [threadOf, viewOf, Option.bind_eq_some_iff] at hth'
  obtain ⟨tid, hheld, hthread⟩ := hth'
  have htid : t.pthreadThreadID = some tid := by
    unfold held at hheld
    split at hheld
    · simpa [ht] using hheld
    · cases hheld
  exact ⟨t, tid, th, ht, htid, hheld, hthread, hth, hfits⟩

/-- Every thread is some object's. -/
theorem of_thread (h : Inv w) (hth : w.threads tid = some th) :
    ∃ t, w.objects th.arg = some t ∧ held w th.arg = some tid ∧ threadOf w th.arg = some th ∧
      Fits th.arg t th := by
  obtain ⟨p, hp⟩ : ∃ p, held w p = some tid := by
    by_contra hnone
    push Not at hnone
    rw [h.owned.frame tid hnone] at hth
    cases hth
  have hview : threadOf w p = some th := by rw [threadOf, viewOf, hp]; exact hth
  obtain ⟨t, ht, hfits⟩ := h.fits p th hview
  obtain rfl := hfits.arg
  exact ⟨t, ht, hp, hview, hfits⟩

theorem thread_eq_none (h : Inv w) (hp : w.awaited p = false) : threadOf w p = none := by
  rw [h.awaited] at hp
  simpa using hp

theorem not_awaited (h : Inv w) (hp : w.objects p = none) : w.awaited p = false := by
  by_contra hne
  rw [Bool.not_eq_false] at hne
  obtain ⟨t, -, -, ht, -⟩ := h.of_awaited hne
  rw [hp] at ht
  cases ht

end Inv

/-! ## One object at a time -/

/-- From `w` to `w'` the object at `p` has become `o`, and its thread `th`. -/
structure Changes (w w' : Program V) (p : Pointer) (o : Option (Thread V)) (th : Option PThread) :
    Prop where
  owned : Owned (fun _ => none) w'.threads (held w')
  objects : w'.objects = Function.update w.objects p o
  thread : threadOf w' = Function.update (threadOf w) p th
  awaited : w'.awaited = Function.update w.awaited p th.isSome
  running : w'.running = w.running

namespace Changes

variable {w w' : Program V} {p : Pointer} {o : Option (Thread V)} {th : Option PThread}

theorem inv (hc : Changes w w' p o th) (h : Inv w)
    (hfits : ∀ th', th = some th' → ∃ t, o = some t ∧ Fits p t th') : Inv w' where
  owned := hc.owned
  fits q th' hq := by
    rw [hc.thread] at hq
    by_cases he : q = p
    · subst he
      rw [Function.update_self] at hq
      obtain ⟨t, rfl, ht⟩ := hfits th' hq
      exact ⟨t, by rw [hc.objects, Function.update_self], ht⟩
    · rw [Function.update_of_ne he] at hq
      rw [hc.objects, Function.update_of_ne he]
      exact h.fits q th' hq
  awaited q := by
    rw [hc.awaited, hc.thread]
    by_cases he : q = p
    · subst he
      rw [Function.update_self, Function.update_self]
    · rw [Function.update_of_ne he, Function.update_of_ne he, h.awaited]

theorem taskOf_self (hc : Changes w w' p o th) : taskOf w' p = taskAt o th := by
  rw [taskOf, hc.objects, hc.thread, Function.update_self, Function.update_self]

theorem taskOf_ne (hc : Changes w w' p o th) {q : Pointer} (hq : q ≠ p) :
    taskOf w' q = taskOf w q := by
  rw [taskOf, taskOf, hc.objects, hc.thread, Function.update_of_ne hq, Function.update_of_ne hq]

theorem held_ne (hc : Changes w w' p o th) {q : Pointer} (hq : q ≠ p) : held w' q = held w q := by
  rw [held, held, hc.awaited, hc.objects, Function.update_of_ne hq, Function.update_of_ne hq]

end Changes

section Steps

variable {w : Program V} {p : Pointer} {t : Thread V} {tid : Tid} {th : PThread}

theorem held_congr {w' : Program V} (hawaited : w'.awaited = w.awaited)
    (hobjects : ∀ q, w.awaited q = true →
      (w'.objects q).bind Thread.pthreadThreadID = (w.objects q).bind Thread.pthreadThreadID) :
    held w' = held w := by
  funext q
  simp only [held, hawaited]
  split
  · next hq => exact hobjects q hq
  · rfl

/-- An object that is not awaited is made, or deleted. -/
theorem changes_objects (h : Inv w) (hp : w.awaited p = false) (o : Option (Thread V)) :
    Changes w { w with objects := Function.update w.objects p o } p o none := by
  have hheld : held { w with objects := Function.update w.objects p o } = held w := by
    refine held_congr rfl fun q hq => ?_
    have hne : q ≠ p := by
      rintro rfl
      rw [hp] at hq
      cases hq
    simp [Function.update_of_ne hne]
  refine ⟨hheld ▸ h.owned, rfl, ?_, ?_, rfl⟩
  · rw [threadOf, hheld, ← h.thread_eq_none hp, Function.update_eq_self]
    rfl
  · rw [Option.isSome_none, ← hp, Function.update_eq_self]

/-- A thread is made. -/
theorem changes_create (h : Inv w) (hp : w.awaited p = false) (ht : w.objects p = some t)
    (htid : w.threads tid = none) :
    Changes w (w.create p t tid) p (some { t with pthreadThreadID := some tid })
      (some ⟨routineFor t.runnable, p, t.detached, .created⟩) := by
  have hheld : held (w.create p t tid) = Function.update (held w) p (some tid) := by
    funext q
    by_cases hq : q = p
    · subst hq
      simp [held, Program.create]
    · simp [held, Program.create, Function.update_of_ne hq]
  have hnone : held w p = none := by simp [held, hp]
  refine ⟨?_, rfl, ?_, rfl, rfl⟩
  · rw [hheld]
    exact h.owned.acquire hnone htid _
  · rw [threadOf, hheld]
    exact h.owned.view_acquire htid _

/-- The thread of an object goes on, and may store a result. -/
theorem changes_write {t' : Thread V} {objects : Pointer → Option (Thread V)} (h : Inv w)
    (hth : w.threads tid = some th) (ht : w.objects th.arg = some t)
    (htid : t'.pthreadThreadID = t.pthreadThreadID)
    (hobjects : objects = Function.update w.objects th.arg (some t')) (th' : PThread) :
    Changes w { w with objects := objects, threads := Function.update w.threads tid (some th') }
      th.arg (some t') (some th') := by
  obtain ⟨t₀, ht₀, hheld₀, hview, -⟩ := h.of_thread hth
  have hheld : held { w with
      objects := objects
      threads := Function.update w.threads tid (some th') } = held w := by
    refine held_congr rfl fun q _ => ?_
    by_cases hq : q = th.arg
    · simp [hobjects, hq, ht, htid]
    · simp [hobjects, Function.update_of_ne hq]
  refine ⟨?_, hobjects, ?_, ?_, rfl⟩
  · rw [hheld]
    exact h.owned.write hheld₀ _
  · rw [threadOf, hheld]
    exact h.owned.view_write hheld₀ _
  · have hawaited : w.awaited th.arg = true := by rw [h.awaited, hview, Option.isSome_some]
    rw [Option.isSome_some, ← hawaited, Function.update_eq_self]

/-- The thread of an object is gone. -/
theorem changes_release (h : Inv w) (hp : held w p = some tid) (ht : w.objects p = some t) :
    Changes w
      { w with threads := Function.update w.threads tid none,
               awaited := Function.update w.awaited p false }
      p (some t) none := by
  have hheld : held { w with
      threads := Function.update w.threads tid none
      awaited := Function.update w.awaited p false } = Function.update (held w) p none := by
    funext q
    by_cases hq : q = p
    · subst hq
      simp [held]
    · simp [held, Function.update_of_ne hq]
  refine ⟨?_, ?_, ?_, rfl, rfl⟩
  · rw [hheld]
    exact h.owned.release hp
  · rw [← ht, Function.update_eq_self]
  · rw [threadOf, hheld]
    exact h.owned.view_release hp

end Steps

/-! ## Steps -/

section Lives

variable [DecidableEq V] {w w' : Program V} {e : Event V}

/-- The step from `w` is one that the lives of the objects allow, or ends the program. -/
structure Lives (w : Program V) (r : Event V × Program V) : Prop where
  inv : Inv r.2
  sound : r.1.sound = true
  next : r.2.running = w.running → ∀ p, (taskOf w p).next p r.1 = some (taskOf r.2 p)
  held : r.2.running = w.running → ∀ p, r.1.about ≠ some p → held r.2 p = held w p
  ends : r.2.running ≠ w.running → r.1 = .aborted

theorem lives_of_changes {p : Pointer} {o : Option (Thread V)} {th : Option PThread} (h : Inv w)
    (hc : Changes w w' p o th) (hfits : ∀ th', th = some th' → ∃ t, o = some t ∧ Fits p t th')
    (he : e.about = some p) (hlive : (taskOf w p).live e = some (taskAt o th)) :
    Lives w (e, w') where
  inv := hc.inv h hfits
  sound := by
    cases e with
    | dangling => cases he
    | _ => rfl
  next _ q := by
    by_cases hq : q = p
    · subst hq
      simp only [Task.next, he, if_true, hlive, hc.taskOf_self]
    · have hne : e.about ≠ some q := fun hq' => hq (Option.some.inj (hq'.symm.trans he))
      simp only [Task.next, hne, if_false, hc.taskOf_ne hq]
  held _ q hq := hc.held_ne fun hpq => hq (by rw [he, hpq])
  ends hne := absurd hc.running hne

theorem lives_aborted (h : Inv w) : Lives w w.aborted where
  inv := ⟨h.owned, h.fits, h.awaited⟩
  sound := rfl
  next _ _ := rfl
  held _ _ _ := rfl
  ends _ := rfl

theorem lives_blocked (h : Inv w) : Lives w (.blocked, w) where
  inv := h
  sound := rfl
  next _ _ := rfl
  held _ _ _ := rfl
  ends hne := absurd rfl hne

theorem lives_construct (h : Inv w) {p : Pointer} (runnable detached : Bool)
    (hp : w.objects p = none) : Lives w (w.construct p runnable detached) := by
  refine lives_of_changes h (changes_objects h (h.not_awaited hp) _) (fun _ h => nomatch h) rfl ?_
  simp [taskOf, taskAt, hp, Task.live, phaseAt]

theorem lives_delete (h : Inv w) {p : Pointer} (hp : w.awaited p = false)
    (hlive : (w.objects p).isSome) : Lives w (program.step w (.delete p)) := by
  obtain ⟨t, ht⟩ := Option.isSome_iff_exists.mp hlive
  refine lives_of_changes h (changes_objects h hp none) (fun _ h => nomatch h) rfl ?_
  simp [taskOf, taskAt, ht, h.thread_eq_none hp, Task.live, phaseAt]

theorem lives_start (h : Inv w) {p : Pointer} (statuses : Statuses) {tid : Tid}
    (hrunning : w.running = true) (hlive : (w.objects p).isSome) (hp : w.awaited p = false)
    (htid : w.threads tid = none) : Lives w (w.start p statuses tid) := by
  obtain ⟨t, ht⟩ := Option.isSome_iff_exists.mp hlive
  have hchanges := changes_create h hp ht htid
  have hfits : ∀ th', some (⟨routineFor t.runnable, p, t.detached, .created⟩ : PThread) = some th' →
      ∃ t', some { t with pthreadThreadID := some tid } = some t' ∧ Fits p t' th' := by
    intro th' hth'
    obtain rfl := Option.some.inj hth'
    exact ⟨_, rfl, rfl, rfl, rfl, by simp, by simp⟩
  have hstarted : Lives w (.started p, w.create p t tid) := by
    refine lives_of_changes h hchanges hfits rfl ?_
    simp [taskOf, taskAt, ht, h.thread_eq_none hp, Task.live, phaseAt]
  have haborted : Lives w (w.create p t tid).aborted :=
    ⟨(lives_aborted hstarted.inv).inv, rfl,
      fun he => absurd (he.trans hrunning) (by simp [Program.aborted]),
      fun he => absurd (he.trans hrunning) (by simp [Program.aborted]), fun _ => rfl⟩
  simp only [Program.start, ht]
  split
  · exact lives_aborted h
  · split
    · split
      · exact lives_aborted h
      · exact hstarted
    · split
      · exact lives_aborted h
      · split
        · exact haborted
        · exact hstarted

theorem lives_begin (h : Inv w) {tid : Tid} {th : PThread} (hth : w.threads tid = some th)
    (hphase : th.phase = .created) : Lives w (w.begin tid) := by
  obtain ⟨t, ht, -, hview, hfits⟩ := h.of_thread hth
  have hchanges : Changes w
      { w with threads := Function.update w.threads tid (some { th with phase := .inRun }) }
      th.arg (some t) (some { th with phase := .inRun }) :=
    changes_write h hth ht rfl (by rw [← ht, Function.update_eq_self]) _
  simp only [Program.begin, Program.routineStep, hth, ht, hfits.runs, if_false]
  refine lives_of_changes h hchanges ?_ rfl ?_
  · intro th' hth'
    obtain rfl := Option.some.inj hth'
    exact ⟨t, rfl, rfl, hfits.detached, hfits.routine, by simp, by simp⟩
  · simp [taskOf, taskAt, ht, hview, phaseAt, hphase, Task.live, hfits.routine]

theorem lives_ret (h : Inv w) {tid : Tid} {th : PThread} (hth : w.threads tid = some th)
    (hphase : th.phase = .inRun) (v : V) : Lives w (w.ret tid v) := by
  obtain ⟨t, ht, -, hview, hfits⟩ := h.of_thread hth
  have htid : ({ t with result := some v } : Thread V).pthreadThreadID = t.pthreadThreadID := rfl
  have hchanges := changes_write h hth ht htid rfl { th with phase := .stored }
  simp only [Program.ret, Program.routineStep, hth, ht]
  refine lives_of_changes h hchanges ?_ rfl ?_
  · intro th' hth'
    obtain rfl := Option.some.inj hth'
    exact ⟨_, rfl, rfl, hfits.detached, hfits.routine, by simp, by simp⟩
  · simp [taskOf, taskAt, ht, hview, phaseAt, hphase, Task.live]

theorem lives_exit (h : Inv w) {tid : Tid} {th : PThread} (hth : w.threads tid = some th)
    (hphase : th.phase = .stored) : Lives w (w.exit tid) := by
  obtain ⟨t, ht, hheld, hview, hfits⟩ := h.of_thread hth
  obtain ⟨v, hv⟩ := Option.isSome_iff_exists.mp (hfits.result (.inl hphase))
  simp only [Program.exit, Program.routineStep, hth, ht]
  by_cases hdetached : th.detached
  · have hdet : t.detached = true := hfits.detached ▸ hdetached
    rw [if_pos hdetached]
    refine lives_of_changes h (changes_release h hheld ht) (fun _ h => nomatch h) rfl ?_
    simp [taskOf, taskAt, ht, hview, phaseAt, hphase, hv, Task.live, hdet]
  · have hdet : t.detached = false := by
      rw [← hfits.detached]
      simpa using hdetached
    have hchanges : Changes w
        { w with threads := Function.update w.threads tid (some { th with phase := .ended }) }
        th.arg (some t) (some { th with phase := .ended }) :=
      changes_write h hth ht rfl (by rw [← ht, Function.update_eq_self]) _
    rw [if_neg hdetached]
    refine lives_of_changes h hchanges ?_ rfl ?_
    · intro th' hth'
      obtain rfl := Option.some.inj hth'
      exact ⟨t, rfl, rfl, hfits.detached, hfits.routine, fun _ => by simp [hv],
        fun _ => by simpa using hdetached⟩
    · simp [taskOf, taskAt, ht, hview, phaseAt, hphase, hv, Task.live, hdet]

theorem lives_join (h : Inv w) {p : Pointer} (hp : w.awaited p = true)
    (hjoinable : ∀ t, w.objects p = some t → t.detached = false) : Lives w (w.join p) := by
  obtain ⟨t, tid, th, ht, htid, hheld, hthread, hview, hfits⟩ := h.of_awaited hp
  have hdet : th.detached = false := hfits.detached.trans (hjoinable t ht)
  simp only [Program.join, ht, htid, hthread, hdet]
  by_cases hended : th.phase = .ended
  · obtain ⟨v, hv⟩ := Option.isSome_iff_exists.mp (hfits.result (.inr hended))
    rw [if_neg (by simp), if_neg (not_not.mpr hended)]
    refine lives_of_changes h (changes_release h hheld ht) (fun _ h => nomatch h) rfl ?_
    simp [taskOf, taskAt, ht, hview, phaseAt, hended, hv, Task.live]
  · rw [if_neg (by simp), if_pos hended]
    exact lives_blocked h

/-- **One step** of any thread. -/
theorem lives_step (h : Inv w) (c : Step V) (hok : Admissible w c) :
    Lives w (program.step w c) := by
  obtain ⟨hrunning, hok⟩ := hok
  cases c with
  | newRunnable p runnable detached =>
    simp only [program]
    split
    · exact lives_construct h true detached hok
    · exact lives_aborted h
  | new p detached => exact lives_construct h false detached hok
  | start p statuses tid => exact lives_start h statuses hrunning hok.1 hok.2.1 hok.2.2
  | begin tid =>
    obtain ⟨th, hth, hphase⟩ := hok
    exact lives_begin h hth hphase
  | ret tid v =>
    obtain ⟨th, hth, hphase⟩ := hok
    exact lives_ret h hth hphase v
  | exit tid =>
    obtain ⟨th, hth, hphase⟩ := hok
    exact lives_exit h hth hphase
  | join p => exact lives_join h hok.1 hok.2
  | delete p => exact lives_delete h hok.2 hok.1

end Lives

/-! ## Runs -/

/-- The value that `run` of `p` has returned last. -/
def lastStored (p : Pointer) (events : List (Event V)) : Option V :=
  (events.filterMap fun e => match e with
    | .stored q v => if q = p then some v else none
    | _ => none).getLast?

theorem lastStored_stored (p : Pointer) (events : List (Event V)) (v : V) :
    lastStored p (events ++ [.stored p v]) = some v := by
  simp [lastStored]

theorem lastStored_other {p : Pointer} {e : Event V} (he : ∀ v, e ≠ .stored p v)
    (events : List (Event V)) : lastStored p (events ++ [e]) = lastStored p events := by
  cases e with
  | stored q v =>
    have hq : q ≠ p := fun hq => he v (by rw [hq])
    simp [lastStored, hq]
  | _ => simp [lastStored]

/-- A task in one of these phases has a value. -/
def TaskPhase.value : TaskPhase V → Option V
  | .stored v | .ended v => some v
  | .idle | .started | .running => none

section Runs

variable [DecidableEq V]

/-- A task has a value by storing it, or has had it before. -/
theorem live_value {t : Task V} {e : Event V} {r d : Bool} {phase : TaskPhase V} {v : V}
    (h : t.live e = some (.present r d phase)) (hv : phase.value = some v) :
    (∃ q, e = .stored q v) ∨
      ((∀ q v', e ≠ .stored q v') ∧
        ∃ r' d' phase', t = .present r' d' phase' ∧ phase'.value = some v) := by
  unfold Task.live at h
  split at h
  · cases h
    cases hv
  · cases h
    cases hv
  · split at h
    · cases h
      cases hv
    · cases h
  · cases h
    cases hv
    exact .inl ⟨_, rfl⟩
  · next r d v₀ q =>
    refine .inr ⟨by simp, r, d, .stored v₀, rfl, ?_⟩
    cases d with
    | true =>
      cases h
      cases hv
    | false =>
      cases h
      exact hv
  · split at h
    · cases h
      cases hv
    · cases h
  · cases h
  · cases h

theorem foldlM_concat {p : Pointer} {events : List (Event V)} {e : Event V} {t' : Task V} :
    (events ++ [e]).foldlM (Task.next p) .absent = some t' ↔
      ∃ t, events.foldlM (Task.next p) .absent = some t ∧ t.next p e = some t' := by
  simp [List.foldlM_append, Option.bind_eq_some_iff]

/-- The value of a task is the one stored last. -/
theorem value_of_accepted {p : Pointer} {events : List (Event V)} {r d : Bool}
    {phase : TaskPhase V} {v : V}
    (h : events.foldlM (Task.next p) .absent = some (.present r d phase))
    (hv : phase.value = some v) : lastStored p events = some v := by
  induction events using List.reverseRecOn generalizing r d phase with
  | nil => cases h
  | append_singleton events e ih =>
    obtain ⟨t, ht, hnext⟩ := foldlM_concat.mp h
    by_cases he : e.about = some p
    · rw [Task.next, if_pos he] at hnext
      obtain ⟨q, rfl⟩ | ⟨hother, r', d', phase', rfl, hv'⟩ := live_value hnext hv
      · obtain rfl := Option.some.inj he
        exact lastStored_stored q events v
      · rw [lastStored_other (hother p)]
        exact ih ht hv'
    · rw [Task.next, if_neg he] at hnext
      obtain rfl := Option.some.inj hnext
      rw [lastStored_other (fun v hst => he (by rw [hst]; rfl))]
      exact ih ht hv

/-- The life of an object, along a run. -/
theorem accepted (calls : List (Step V)) (hok : program.Along Admissible .init calls)
    (p : Pointer) : ∃ t, (program.trace .init calls).foldlM (Task.next p) .absent = some t ∧
      Inv (program.exec .init calls) ∧
      ((program.exec .init calls).running = true → taskOf (program.exec .init calls) p = t) := by
  refine Machine.trace_accepted (R := fun w t => Inv w ∧ (w.running = true → taskOf w p = t))
    (fun w t c hw hc => ?_) calls ⟨Inv.init, fun _ => rfl⟩ hok
  obtain ⟨hinv, htask⟩ := hw
  have hlives := lives_step hinv c hc
  have hrunning : w.running = true := hc.1
  obtain rfl := htask hrunning
  by_cases hgoes : (program.step w c).2.running = w.running
  · exact ⟨_, hlives.next hgoes p, hlives.inv, fun _ => rfl⟩
  · have hevent := hlives.ends hgoes
    refine ⟨taskOf w p, by rw [hevent]; rfl, hlives.inv, fun hr => ?_⟩
    exact absurd (hr.trans hrunning.symm) hgoes

end Runs

/-! ## Joins -/

section Joins

variable {w : Program V} {p : Pointer} {tid : Tid} {c : Step V} {n : ℕ}

/-- How many steps of its start routine a thread has taken, when there is one. -/
def TaskPhase.steps : TaskPhase V → Option ℕ
  | .idle => none
  | .started => some 0
  | .running => some 1
  | .stored _ => some 2
  | .ended _ => some 3

/-- The object at `p` was started with the thread `tid`, which has taken `n` steps, and it is not
joined yet. -/
structure Joinable (w : Program V) (p : Pointer) (tid : Tid) (n : ℕ) : Prop where
  inv : Inv w
  held : held w p = some tid
  task : ∃ r phase, taskOf w p = .present r false phase ∧ phase.steps = some n

namespace Joinable

theorem awaited (h : Joinable w p tid n) : w.awaited p = true := by
  by_contra hne
  have hnone := h.held
  simp [Threads.held, hne] at hnone

/-- The object, its thread, and what `n` says of it. -/
theorem thread (h : Joinable w p tid n) :
    ∃ t th, w.objects p = some t ∧ t.detached = false ∧ w.threads tid = some th ∧
      Fits p t th ∧ (phaseAt t.result (some th)).steps = some n := by
  obtain ⟨t, tid', th, ht, -, hheld, hth, hview, hfits⟩ := h.inv.of_awaited h.awaited
  obtain rfl := Option.some.inj (h.held.symm.trans hheld)
  obtain ⟨r, phase, htask, hsteps⟩ := h.task
  simp only [taskOf, ht, hview, taskAt, Task.present.injEq] at htask
  obtain ⟨-, hdet, hphase⟩ := htask
  exact ⟨t, th, ht, hdet, hth, hfits, hphase ▸ hsteps⟩

end Joinable

/-- A step of a start routine is about the argument of its thread. -/
theorem about_of_thread (h : Inv w) (hok : Admissible w c) (hc : c.thread = some tid) :
    ∃ th, w.threads tid = some th ∧ (program.step w c).1.about = some th.arg := by
  obtain ⟨-, hok⟩ := hok
  cases c with
  | begin tid' =>
    obtain rfl := Option.some.inj hc
    obtain ⟨th, hth, -⟩ := hok
    obtain ⟨t, ht, -, -, hfits⟩ := h.of_thread hth
    refine ⟨th, hth, ?_⟩
    simp [program, Program.begin, Program.routineStep, hth, ht, hfits.runs, Event.about]
  | ret tid' v =>
    obtain rfl := Option.some.inj hc
    obtain ⟨th, hth, -⟩ := hok
    obtain ⟨t, ht, -⟩ := h.of_thread hth
    exact ⟨th, hth, by simp [program, Program.ret, Program.routineStep, hth, ht, Event.about]⟩
  | exit tid' =>
    obtain rfl := Option.some.inj hc
    obtain ⟨th, hth, -⟩ := hok
    obtain ⟨t, ht, -⟩ := h.of_thread hth
    refine ⟨th, hth, ?_⟩
    simp only [program, Program.exit, Program.routineStep, hth, ht]
    split <;> rfl
  | _ => cases hc

/-- The program itself touches no awaited object, but to join it. -/
theorem not_awaited_of_about (h : Inv w) (hok : Admissible w c) (hc : c.thread = none)
    (habout : (program.step w c).1.about = some p)
    (hjoin : ∀ result, (program.step w c).1 ≠ .joined p result) : w.awaited p = false := by
  obtain ⟨-, hok⟩ := hok
  cases c with
  | «begin» | ret | exit => cases hc
  | newRunnable q runnable detached =>
    cases runnable with
    | false => cases habout
    | true =>
      obtain rfl := Option.some.inj habout
      exact h.not_awaited hok
  | new q detached =>
    obtain rfl := Option.some.inj habout
    exact h.not_awaited hok
  | start q statuses tid =>
    obtain ⟨t, ht⟩ := Option.isSome_iff_exists.mp hok.1
    have hq : q = p := by
      simp only [program, Program.start, ht] at habout
      split_ifs at habout <;> first | cases habout; done | exact Option.some.inj habout
    exact hq ▸ hok.2.1
  | join q =>
    obtain ⟨t, tid, th, ht, htid, -, hth, -, hfits⟩ := h.of_awaited hok.1
    have hdet : th.detached = false := hfits.detached.trans (hok.2 t ht)
    simp only [program, Program.join, ht, htid, hth, hdet, Bool.false_eq_true, if_false]
      at habout hjoin
    by_cases hended : th.phase = .ended
    · rw [if_neg (not_not.mpr hended)] at habout hjoin
      obtain rfl := Option.some.inj habout
      exact absurd rfl (hjoin t.result)
    · rw [if_pos hended] at habout
      cases habout
  | delete q =>
    obtain rfl := Option.some.inj habout
    exact hok.2

namespace Joinable

/-- As long as it is not joined, a step is about the object exactly when its thread takes it. -/
theorem about_iff (h : Joinable w p tid n) (hok : Admissible w c)
    (hjoin : ∀ result, (program.step w c).1 ≠ .joined p result) :
    (program.step w c).1.about = some p ↔ c.thread = some tid := by
  obtain ⟨t, th, ht, -, hth, hfits, -⟩ := h.thread
  constructor
  · intro habout
    cases hc : c.thread with
    | none =>
      have hidle := not_awaited_of_about h.inv hok hc habout hjoin
      rw [h.awaited] at hidle
      cases hidle
    | some tid' =>
      obtain ⟨th', hth', habout'⟩ := about_of_thread h.inv hok hc
      obtain ⟨-, -, hheld, -⟩ := h.inv.of_thread hth'
      rw [Option.some.inj (habout'.symm.trans habout)] at hheld
      exact hheld.symm.trans h.held
  · intro hc
    obtain ⟨th', hth', habout⟩ := about_of_thread h.inv hok hc
    obtain rfl := Option.some.inj (hth'.symm.trans hth)
    rw [habout, hfits.arg]

/-- The steps of its thread leave the identifier to the object. -/
theorem held_of_thread (h : Joinable w p tid n) (hok : Admissible w c) (hc : c.thread = some tid) :
    Threads.held (program.step w c).2 p = some tid := by
  obtain ⟨t, th, ht, hdet, hth, hfits, -⟩ := h.thread
  have hdetached : th.detached = false := hfits.detached.trans hdet
  have hheld := h.held
  cases c with
  | «begin» tid' =>
    obtain rfl := Option.some.inj hc
    simp only [program, Program.begin, Program.routineStep, hth, hfits.arg, ht, hfits.runs,
      if_false]
    exact hheld
  | ret tid' v =>
    obtain rfl := Option.some.inj hc
    simp only [program, Program.ret, Program.routineStep, hth, hfits.arg, ht]
    simpa [Threads.held, h.awaited, ht] using hheld
  | exit tid' =>
    obtain rfl := Option.some.inj hc
    simp only [program, Program.exit, Program.routineStep, hth, hfits.arg, ht, hdetached]
    exact hheld
  | _ => cases hc

/-- The join, when all three steps are taken and before. -/
theorem join (h : Joinable w p tid n) :
    n ≤ 3 ∧ (n = 3 → ∃ r v, taskOf w p = .present r false (.ended v) ∧
        (program.step w (.join p)).1 = .joined p (some v)) ∧
      (n ≠ 3 → (program.step w (.join p)).1 = .blocked) := by
  obtain ⟨t, tid', th, ht, htid, hheld, hth, hview, hfits⟩ := h.inv.of_awaited h.awaited
  obtain ⟨r, phase, htask, hsteps⟩ := h.task
  have htask' := htask
  simp only [taskOf, ht, hview, taskAt, Task.present.injEq] at htask'
  obtain ⟨rfl, hdet, rfl⟩ := htask'
  have hdetached : th.detached = false := hfits.detached.trans hdet
  simp only [program, Program.join, ht, htid, hth, hdetached, Bool.false_eq_true, if_false]
  by_cases hended : th.phase = .ended
  · obtain ⟨v, hv⟩ := Option.isSome_iff_exists.mp (hfits.result (.inr hended))
    rw [if_neg (not_not.mpr hended)]
    simp only [phaseAt, hended, hv, TaskPhase.steps, Option.some.injEq] at hsteps htask
    exact ⟨by omega, fun _ => ⟨_, v, htask, by rw [hv]⟩, fun hn => absurd hsteps.symm hn⟩
  · have hn : n < 3 := by
      cases hphase : th.phase with
      | ended => exact absurd hphase hended
      | created | inRun =>
        simp only [phaseAt, hphase, TaskPhase.steps, Option.some.injEq] at hsteps
        omega
      | stored =>
        obtain ⟨v, hv⟩ := Option.isSome_iff_exists.mp (hfits.result (.inl hphase))
        simp only [phaseAt, hphase, hv, TaskPhase.steps, Option.some.injEq] at hsteps
        omega
    rw [if_pos hended]
    exact ⟨by omega, fun he => absurd he (by omega), fun _ => rfl⟩

/-- A start that goes on. -/
theorem start {statuses : Statuses} (h : Inv w) (hok : Admissible w (.start p statuses tid))
    (hjoinable : ∀ t, w.objects p = some t → t.detached = false)
    (hruns : (program.step w (.start p statuses tid)).2.running = true) :
    Joinable (program.step w (.start p statuses tid)).2 p tid 0 := by
  obtain ⟨-, hlive, hp, htid⟩ := hok
  obtain ⟨t, ht⟩ := Option.isSome_iff_exists.mp hlive
  have hdet := hjoinable t ht
  have hchanges := changes_create h hp ht htid
  have hstep : (program.step w (.start p statuses tid)).2 = w.create p t tid := by
    simp only [program, Program.start, ht, hdet, Bool.not_false, if_true] at hruns ⊢
    split_ifs at hruns ⊢
    · cases hruns
    · cases hruns
    · rfl
  rw [hstep]
  refine ⟨hchanges.inv h fun th' hth' => ?_, ?_, t.runnable, .started, ?_, rfl⟩
  · obtain rfl := Option.some.inj hth'
    exact ⟨_, rfl, rfl, rfl, rfl, by simp, by simp⟩
  · simp [Threads.held, Program.create]
  · simp [hchanges.taskOf_self, taskAt, phaseAt, hdet]

end Joinable

/-- A program that runs on has not ended before. -/
theorem running_of_along {more : List (Step V)} (hok : program.Along Admissible w more)
    (hruns : (program.exec w more).running = true) : w.running = true := by
  cases more with
  | nil => exact hruns
  | cons c more => exact hok.1.1

variable [DecidableEq V]

/-- Each event of a task that is under way, but the join, is its next step. -/
theorem live_steps {r : Bool} {phase : TaskPhase V} {e : Event V} {t : Task V}
    (h : (Task.present r false phase).live e = some t) (hsteps : phase.steps = some n)
    (hjoin : ∀ q result, e ≠ .joined q result) :
    ∃ phase', t = .present r false phase' ∧ phase'.steps = some (n + 1) := by
  cases phase with
  | idle => cases hsteps
  | started =>
    obtain rfl := Option.some.inj hsteps
    cases e with
    | ran q routine =>
      simp only [Task.live] at h
      split at h
      · exact ⟨.running, (Option.some.inj h).symm, rfl⟩
      · cases h
    | _ => cases h
  | running =>
    obtain rfl := Option.some.inj hsteps
    cases e with
    | stored q v => exact ⟨.stored v, (Option.some.inj h).symm, rfl⟩
    | _ => cases h
  | stored v =>
    obtain rfl := Option.some.inj hsteps
    cases e with
    | exited q => exact ⟨.ended v, (Option.some.inj h).symm, rfl⟩
    | _ => cases h
  | ended v =>
    cases e with
    | joined q result => exact absurd rfl (hjoin q result)
    | _ => cases h

namespace Joinable

/-- One step of any thread, the one of the object or another. -/
theorem step (h : Joinable w p tid n) (hok : Admissible w c)
    (hruns : (program.step w c).2.running = true)
    (hjoin : ∀ result, (program.step w c).1 ≠ .joined p result) :
    Joinable (program.step w c).2 p tid (n + if c.thread = some tid then 1 else 0) := by
  have hlives := lives_step h.inv c hok
  have hgoes : (program.step w c).2.running = w.running := hruns.trans hok.1.symm
  have hnext := hlives.next hgoes p
  obtain ⟨r, phase, htask, hsteps⟩ := h.task
  rw [htask, Task.next] at hnext
  by_cases hc : c.thread = some tid
  · have habout := (h.about_iff hok hjoin).mpr hc
    rw [if_pos habout] at hnext
    have hother : ∀ q result, (program.step w c).1 ≠ .joined q result := by
      intro q result he
      rw [he] at habout
      obtain rfl := Option.some.inj habout
      exact hjoin result he
    obtain ⟨phase', htask', hsteps'⟩ := live_steps hnext hsteps hother
    rw [if_pos hc]
    exact ⟨hlives.inv, h.held_of_thread hok hc, r, phase', htask', hsteps'⟩
  · have habout : (program.step w c).1.about ≠ some p := fun he =>
      hc ((h.about_iff hok hjoin).mp he)
    rw [if_neg habout] at hnext
    rw [if_neg hc]
    exact ⟨hlives.inv, (hlives.held hgoes p habout).trans h.held, r, phase,
      (Option.some.inj hnext).symm, hsteps⟩

/-- A run of any threads. -/
theorem run : ∀ {w : Program V} {n : ℕ} (more : List (Step V)), Joinable w p tid n →
    program.Along Admissible w more → (program.exec w more).running = true →
    (∀ result, .joined p result ∉ program.trace w more) →
    Joinable (program.exec w more) p tid (n + more.countP fun c => c.thread = some tid)
  | _, _, [], h, _, _, _ => h
  | w, n, c :: more, h, hok, hruns, hjoin => by
    have hgoes : (program.step w c).2.running = true := running_of_along hok.2 hruns
    have hnow : ∀ result, (program.step w c).1 ≠ .joined p result := fun result he =>
      hjoin result (by simp [he])
    have hlater : ∀ result, .joined p result ∉ program.trace (program.step w c).2 more :=
      fun result hmem => hjoin result (List.mem_cons_of_mem _ hmem)
    have hrun := run more (h.step hok.1 hgoes hnow) hok.2 hruns hlater
    rw [List.countP_cons, Nat.add_comm (more.countP _), ← Nat.add_assoc]
    simpa using hrun

end Joinable

/-- **When a join returns.** After a joinable object has been started, and as long as it is not
joined, its thread takes at most three steps in any interleaving of admissible steps, in which the
program does not start or delete the object again; a join waits before the third, and then it
returns what the call of `run` returned. -/
theorem join_returns_iff {before more : List (Step V)} {p : Pointer} {statuses : Statuses}
    {tid : Tid} (hok : program.Along Admissible .init (before ++ .start p statuses tid :: more))
    (hjoinable : ∀ t, (program.exec .init before).objects p = some t → t.detached = false)
    (hruns : (program.exec .init (before ++ .start p statuses tid :: more)).running = true)
    (hjoin : ∀ result, .joined p result ∉
      program.trace (program.exec .init (before ++ [.start p statuses tid])) more) :
    let calls := before ++ .start p statuses tid :: more
    let n := more.countP fun c => c.thread = some tid
    n ≤ 3 ∧ (program.step (program.exec .init calls) (.join p)).1 =
      if n = 3 then .joined p (lastStored p (program.trace .init calls)) else .blocked := by
  intro calls n
  have hexec : program.exec .init calls =
      program.exec (program.exec .init (before ++ [.start p statuses tid])) more := by
    rw [← Machine.exec_append, List.append_assoc]
    rfl
  have hmore : program.Along Admissible
      (program.exec .init (before ++ [.start p statuses tid])) more := by
    rw [Machine.exec_append]
    exact hok.right.2
  have hstart : Joinable (program.exec .init (before ++ [.start p statuses tid])) p tid 0 := by
    obtain ⟨-, -, hinv, -⟩ := accepted before hok.left p
    have hgoes := running_of_along hmore (hexec ▸ hruns)
    rw [Machine.exec_append] at hgoes ⊢
    exact .start hinv hok.right.1 hjoinable hgoes
  have hend := hstart.run more hmore (hexec ▸ hruns) hjoin
  rw [← hexec, Nat.zero_add] at hend
  obtain ⟨hle, hthree, hfewer⟩ := hend.join
  refine ⟨hle, ?_⟩
  by_cases hn : n = 3
  · obtain ⟨r, v, htask, hjoined⟩ := hthree hn
    obtain ⟨t, ht, -, heq⟩ := accepted calls hok p
    rw [← heq hruns, htask] at ht
    rw [if_pos hn, hjoined, value_of_accepted ht rfl]
  · rw [if_neg hn, hfewer hn]

/-! ## Two threads -/

/-- An object and a detached one, the second with a runnable. -/
def twoObjects : List (Step ℕ) := [.new 1 false, .newRunnable 2 true]

/-- After the start of the first. -/
def twoThreads : List (Step ℕ) :=
  [.start 2 {} 8, .begin 8, .begin 7, .ret 7 5, .ret 8 6, .exit 8]

theorem twoThreads_along (more : List (Step ℕ))
    (hmore : program.Along Admissible
      (program.exec .init (twoObjects ++ .start 1 {} 7 :: twoThreads)) more) :
    program.Along Admissible .init (twoObjects ++ .start 1 {} 7 :: (twoThreads ++ more)) :=
  ⟨⟨rfl, rfl⟩, ⟨rfl, rfl⟩, ⟨rfl, rfl, rfl, rfl⟩, ⟨rfl, rfl, rfl, rfl⟩, ⟨rfl, _, rfl, rfl⟩,
    ⟨rfl, _, rfl, rfl⟩, ⟨rfl, _, rfl, rfl⟩, ⟨rfl, _, rfl, rfl⟩, ⟨rfl, _, rfl, rfl⟩, hmore⟩

/-- Before the thread has ended, and after. -/
theorem join_returns_iff_two :
    let w := program.exec .init (twoObjects ++ .start 1 {} 7 :: twoThreads)
    (program.step w (.join 1)).1 = .blocked ∧
      (program.step (program.step w (.exit 7)).2 (.join 1)).1 = .joined 1 (some 5) := by
  intro w
  have hjoinable : ∀ t, (program.exec .init twoObjects).objects 1 = some t →
      t.detached = false := by
    intro t ht
    obtain rfl := Option.some.inj ht
    rfl
  have htrace : program.trace (program.exec .init (twoObjects ++ [.start 1 {} 7]))
      (twoThreads ++ [.exit 7]) =
      [.started 2, .ran 2 .startThreadRunnable, .ran 1 .startThread, .stored 1 5, .stored 2 6,
        .exited 2, .exited 1] := rfl
  have hjoin : ∀ result, .joined 1 result ∉ program.trace
      (program.exec .init (twoObjects ++ [.start 1 {} 7])) (twoThreads ++ [.exit 7]) := by
    simp [htrace]
  have hwaits := join_returns_iff (twoThreads_along [] trivial) hjoinable rfl
    fun result hmem => by
      refine hjoin result ?_
      rw [Machine.trace_append]
      exact List.mem_append_left _ hmem
  have hreturns := join_returns_iff
    (twoThreads_along [.exit 7] ⟨⟨rfl, _, rfl, rfl⟩, trivial⟩) hjoinable rfl hjoin
  exact ⟨hwaits.2, hreturns.2⟩

end Joins

end Threads

end DBUtl
