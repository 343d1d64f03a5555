import DBUtl.Lib.Handles
import DBUtl.Lib.Machine
import Mathlib.Data.Int.Notation

/-!
# Threads

The class `Thread` over the threads of the system. Any threads of a program construct, start, join
and delete objects, and every thread that was started takes its steps at any time: it calls `run`,
stores what `run` returns in its object, and ends.

The system decides which thread is made, and with which identifier; identifiers are used again. What
`run` does is the client's: it returns some value of `V`. A join waits until its thread has ended.

* `Program`, `program` — the code and the system, one step of any thread at a time.
* `Task` — what an object is for: a call of `run` in another thread, and its value.
-/

namespace DBUtl

namespace Threads

variable {V : Type*}

/-- `pthread_t`. -/
abbrev Tid := ℕ

abbrev Pointer := ℕ

/-- An object. Before it is started, its identifier and its result are indeterminate. -/
structure Thread (V : Type*) where
  pthreadThreadID : Option Tid
  detached : Bool
  runnable : Bool
  result : Option V

inductive StartRoutine
  | startThread
  | startThreadRunnable
  deriving DecidableEq

def routineFor (runnable : Bool) : StartRoutine :=
  if runnable then .startThreadRunnable else .startThread

/-- How far a thread has come in its start routine. -/
inductive Phase
  | created
  | inRun
  | stored
  | ended
  deriving DecidableEq

/-- A thread of the system. A detached one is gone when it has ended. -/
structure PThread where
  routine : StartRoutine
  arg : Pointer
  detached : Bool
  phase : Phase

/-- What the functions of `pthread.h` return in a call of `start`. -/
structure Statuses where
  attrInit : ℤ := 0
  attrSetscope : ℤ := 0
  attrSetdetachstate : ℤ := 0
  create : ℤ := 0
  attrDestroy : ℤ := 0

/-- The objects, the threads of the system, and what the program knows: which objects it has started
and not joined, or, for a detached one, not seen the end of. -/
structure Program (V : Type*) where
  objects : Pointer → Option (Thread V)
  threads : Tid → Option PThread
  awaited : Pointer → Bool
  running : Bool

def Program.init : Program V := ⟨fun _ => none, fun _ => none, fun _ => false, true⟩

inductive Step (V : Type*)
  | newRunnable (p : Pointer) (runnable : Bool) (isDetached : Bool := true)
  | new (p : Pointer) (isDetached : Bool := true)
  | start (p : Pointer) (statuses : Statuses) (tid : Tid)
  | begin (tid : Tid)
  | ret (tid : Tid) (v : V)
  | exit (tid : Tid)
  | join (p : Pointer)
  | delete (p : Pointer)

/-- What happens in a step: `ran` is a call of `run`, of the object or of its runnable, and
`blocked` a join that waits. -/
inductive Event (V : Type*)
  | constructed (p : Pointer) (runnable detached : Bool)
  | started (p : Pointer)
  | ran (p : Pointer) (routine : StartRoutine)
  | stored (p : Pointer) (v : V)
  | exited (p : Pointer)
  | joined (p : Pointer) (result : Option V)
  | deleted (p : Pointer)
  | blocked
  | aborted
  | dangling

namespace Program

def aborted (w : Program V) : Event V × Program V := (.aborted, { w with running := false })

def construct (p : Pointer) (runnable detached : Bool) (w : Program V) : Event V × Program V :=
  (.constructed p runnable detached,
    { w with objects := Function.update w.objects p (some ⟨none, detached, runnable, none⟩) })

/-- `pthread_create`, with the start routine for the object. -/
def create (p : Pointer) (t : Thread V) (tid : Tid) (w : Program V) : Program V where
  objects := Function.update w.objects p (some { t with pthreadThreadID := some tid })
  threads := Function.update w.threads tid (some
    ⟨routineFor t.runnable, p, t.detached, .created⟩)
  awaited := Function.update w.awaited p true
  running := w.running

/-- Every status is asserted to be zero. -/
def start (p : Pointer) (statuses : Statuses) (tid : Tid) (w : Program V) :
    Event V × Program V :=
  match w.objects p with
  | none => (.dangling, w)
  | some t =>
    if statuses.attrInit ≠ 0 ∨ statuses.attrSetscope ≠ 0 then w.aborted
    else if !t.detached then
      if statuses.create ≠ 0 then w.aborted
      else (.started p, w.create p t tid)
    else
      if statuses.attrSetdetachstate ≠ 0 ∨ statuses.create ≠ 0 then w.aborted
      else if statuses.attrDestroy ≠ 0 then (w.create p t tid).aborted
      else (.started p, w.create p t tid)

/-- A step of a start routine, which has a pointer to its object. -/
def routineStep (tid : Tid) (f : PThread → Thread V → Event V × Program V) (w : Program V) :
    Event V × Program V :=
  match w.threads tid with
  | none => (.dangling, w)
  | some th =>
    match w.objects th.arg with
    | none => (.dangling, w)
    | some t => f th t

/-- The routine calls `run`: of the object, or of its runnable. -/
def begin (tid : Tid) (w : Program V) : Event V × Program V :=
  w.routineStep tid fun th t =>
    if th.routine = .startThreadRunnable ∧ t.runnable = false then (.dangling, w)
    else
      (.ran th.arg th.routine,
        { w with threads := Function.update w.threads tid (some { th with phase := .inRun }) })

/-- `run` returns, and the routine stores what it returns. -/
def ret (tid : Tid) (v : V) (w : Program V) : Event V × Program V :=
  w.routineStep tid fun th t =>
    (.stored th.arg v,
      { w with
        objects := Function.update w.objects th.arg (some { t with result := some v })
        threads := Function.update w.threads tid (some { th with phase := .stored }) })

/-- The routine returns the result, which nobody reads there. -/
def exit (tid : Tid) (w : Program V) : Event V × Program V :=
  w.routineStep tid fun th _ =>
    if th.detached then
      (.exited th.arg,
        { w with
          threads := Function.update w.threads tid none
          awaited := Function.update w.awaited th.arg false })
    else
      (.exited th.arg,
        { w with threads := Function.update w.threads tid (some { th with phase := .ended }) })

/-- `pthread_join` fails for a thread that is not there or is detached, and the assertion fails with
it. -/
def join (p : Pointer) (w : Program V) : Event V × Program V :=
  match w.objects p with
  | none => (.dangling, w)
  | some t =>
    match t.pthreadThreadID with
    | none => w.aborted
    | some tid =>
      match w.threads tid with
      | none => w.aborted
      | some th =>
        if th.detached then w.aborted
        else if th.phase ≠ .ended then (.blocked, w)
        else
          (.joined p t.result,
            { w with
              threads := Function.update w.threads tid none
              awaited := Function.update w.awaited p false })

end Program

/-- The constructor with a runnable asserts that there is one. The destructor does nothing to the
thread. -/
def program : Machine (Program V) (Step V) (Event V) where
  step w
    | .newRunnable p runnable detached =>
      if runnable then w.construct p true detached else w.aborted
    | .new p detached => w.construct p false detached
    | .start p statuses tid => w.start p statuses tid
    | .begin tid => w.begin tid
    | .ret tid v => w.ret tid v
    | .exit tid => w.exit tid
    | .join p => w.join p
    | .delete p => (.deleted p, { w with objects := Function.update w.objects p none })

/-- The thread that takes the step, for the three steps of a start routine. -/
def Step.thread : Step V → Option Tid
  | .begin tid | .ret tid _ | .exit tid => some tid
  | _ => none

/-- The discipline of the client, and the system. A new object is at a new place; an object is
started when it is not awaited, joined when it is and is not detached, and deleted when it is not:
the code checks none of that, and a second start before the join, or a delete before the thread has
ended, would take the object from its thread. The system makes threads with identifiers that are
free, and a thread takes its steps in order. -/
def Admissible (w : Program V) (c : Step V) : Prop :=
  w.running ∧
    match c with
    | .newRunnable p _ _ | .new p _ => w.objects p = none
    | .start p _ tid => (w.objects p).isSome ∧ w.awaited p = false ∧ w.threads tid = none
    | .begin tid => ∃ th, w.threads tid = some th ∧ th.phase = .created
    | .ret tid _ => ∃ th, w.threads tid = some th ∧ th.phase = .inRun
    | .exit tid => ∃ th, w.threads tid = some th ∧ th.phase = .stored
    | .join p => w.awaited p ∧ ∀ t, w.objects p = some t → t.detached = false
    | .delete p => (w.objects p).isSome ∧ w.awaited p = false

/-! ## What an object is for -/

/-- Where the call of `run` is. -/
inductive TaskPhase (V : Type*)
  | idle
  | started
  | running
  | stored (v : V)
  | ended (v : V)

inductive Task (V : Type*)
  | absent
  | present (runnable detached : Bool) (phase : TaskPhase V)

/-- No object is used that is not there. -/
def Event.sound : Event V → Bool
  | .dangling => false
  | _ => true

/-- The object that an event is about. -/
def Event.about : Event V → Option Pointer
  | .constructed p _ _ | .started p | .ran p _ | .stored p _ | .exited p | .joined p _
  | .deleted p => some p
  | .blocked | .aborted | .dangling => none

/-- The life of an object: when it is started, `run` is called once, of the object or of its
runnable; then its value is stored, the thread ends, and a join returns that value. -/
def Task.live [DecidableEq V] : Task V → Event V → Option (Task V)
  | .absent, .constructed _ r d => some (.present r d .idle)
  | .present r d .idle, .started _ => some (.present r d .started)
  | .present r d .started, .ran _ routine =>
    if routine = routineFor r then some (.present r d .running) else none
  | .present r d .running, .stored _ v => some (.present r d (.stored v))
  | .present r d (.stored v), .exited _ => some (.present r d (if d then .idle else .ended v))
  | .present r d (.ended v), .joined _ result =>
    if result = some v then some (.present r d .idle) else none
  | .present _ _ .idle, .deleted _ => some .absent
  | _, _ => none

/-- The object at `p` lives by the events about it. -/
def Task.next [DecidableEq V] (p : Pointer) (t : Task V) (e : Event V) : Option (Task V) :=
  if e.about = some p then t.live e else some t

end Threads

end DBUtl
