import DBUtl.Lib.Stdio
import DBUtl.Log

/-!
# Where the log is written

`open`, `close` and `isOpen` of `Log.cpp`, and what `MsgPrinter::print` and `printCurried` write.
The log is a stream of `<cstdio>`: `stdout`, or a file. The environment decides what `fopen` returns
and when the library writes out a part of a buffer. Another stream of the program on the same file
is left out.

* `Output` — what the code has: a pointer, and the streams of the program.
* `Sink` — what a log is: a place, and what is written in every place.

The code flushes after every message, and once more before it aborts. So a message is in its file
when the call that prints it is over: nothing waits in a buffer (`output_refines`). A file keeps
what is written to it until it is opened from the start, and gets the messages in order
(`file_keeps`).
-/

namespace DBUtl

namespace Log

inductive Target
  | stdout
  | file (fn : String)
  deriving DecidableEq

/-- A call of one of the functions. `open` carries what `fopen` would return; a message carries its
printer, and how much the library writes out at the two calls of `fprintf`. -/
inductive StreamCall
  | open (fn : Option String) (append : Bool) (found : Option Address)
  | isOpen
  | close
  | setLevel (sev : Severity)
  | message (printer : MsgPrinter) (text : String) (early₁ early₂ : ℕ)

inductive StreamRet
  | bool (b : Bool)
  | level (sev : Severity)
  | void
  | aborted
  | fault
  deriving DecidableEq

/-- The file that `open` is asked for, unless it is asked for `stdout`. -/
def named : Option String → Option String
  | none => none
  | some fn => if fn = "" ∨ fn = "-" then none else some fn

/-- What precedes a message, `"%8ju: %s "`. -/
def header (pid : ℕ) (data : String) : List Char :=
  List.leftpad 8 ' ' (toString pid).toList ++ (": ".toList ++ (data.toList ++ [' ']))

/-! ## What the code has -/

structure Output where
  severityLevel : Severity
  logStream : Option Address
  pid : ℕ
  io : Stdio Address Target
  running : Bool

def Output.isOpen (s : Output) : Bool := s.logStream.isSome

def Output.close (stdout : Address) (s : Output) : Option Output :=
  match s.logStream with
  | none => some s
  | some stream =>
    if stream = stdout then some { s with logStream := none }
    else (s.io.fclose stream).map fun io => { s with logStream := none, io := io }

/-- The stream is closed before `fopen` is called. -/
def Output.open (stdout : Address) (fn : Option String) (append : Bool) (found : Option Address)
    (s : Output) : Option (Bool × Output) :=
  (if s.isOpen then s.close stdout else some s).map fun s =>
    let s :=
      match named fn, found with
      | none, _ => { s with logStream := some stdout }
      | some _, none => { s with logStream := none }
      | some fn, some stream =>
        { s with logStream := some stream, io := s.io.fopen stream (.file fn) append }
    (s.isOpen, s)

/-- Write the message, if its level is high enough and the log is open. -/
def Output.write (printer : MsgPrinter) (text : String) (early₁ early₂ : ℕ) (s : Output) :
    Option Output :=
  if s.severityLevel.value ≤ printer.level.value then
    match s.logStream with
    | none => some s
    | some stream => do
      let io ← s.io.fprintf stream (header s.pid printer.data) early₁
      let io ← io.fprintf stream text.toList early₂
      let io ← io.fflush stream
      some { s with io := io }
  else some s

/-- `print` and `printCurried`, but for what they do with the printer afterwards. -/
def Output.message (printer : MsgPrinter) (text : String) (early₁ early₂ : ℕ) (s : Output) :
    Option Output := do
  let s ← s.write printer text early₁ early₂
  if printer.isAssertion then
    match s.logStream with
    | none => some { s with running := false }
    | some stream => (s.io.fflush stream).map fun io => { s with io := io, running := false }
  else some s

def Output.answered (s : Output) (ret : StreamRet) : Option Output → StreamRet × Output
  | none => (.fault, s)
  | some s' => (ret, s')

def output (stdout : Address) : Machine Output StreamCall StreamRet where
  step s
    | .open fn append found =>
      match s.open stdout fn append found with
      | none => (.fault, s)
      | some (b, s') => (.bool b, s')
    | .isOpen => (.bool s.isOpen, s)
    | .close => s.answered .void (s.close stdout)
    | .setLevel sev => (.level s.severityLevel, { s with severityLevel := sev })
    | .message printer text early₁ early₂ =>
      s.answered (if printer.isAssertion then .aborted else .void)
        (s.message printer text early₁ early₂)

/-- The log is closed. `others` are the streams that the program has opened itself. -/
def Output.init (stdout : Address) (severityLevel : Severity) (pid : ℕ)
    (written : Target → List Char) (others : Address → Option (Stream Target)) : Output where
  severityLevel := severityLevel
  logStream := none
  pid := pid
  io := ⟨written, Function.update others stdout (some ⟨.stdout, []⟩)⟩
  running := true

/-- The program is running, and `fopen` finds a stream that is not open, or the one that has just
been closed. -/
def StreamOk (stdout : Address) (s : Output) : StreamCall → Prop
  | .open _ _ found => s.running ∧
    ∀ stream, found = some stream →
      stream ≠ stdout ∧ (s.io.streams stream = none ∨ s.logStream = some stream)
  | .isOpen | .close | .setLevel _ | .message .. => s.running

/-! ## What a log is -/

structure Sink where
  severityLevel : Severity
  target : Option Target
  pid : ℕ
  written : Target → List Char
  running : Bool

/-- The text that a message adds to the target. -/
def Sink.text (k : Sink) (printer : MsgPrinter) (text : String) : List Char :=
  if k.severityLevel.value ≤ printer.level.value then header k.pid printer.data ++ text.toList
  else []

def Sink.write (k : Sink) (text : List Char) : Sink :=
  match k.target with
  | none => k
  | some t => { k with written := Function.update k.written t (k.written t ++ text) }

theorem Sink.write_nil (k : Sink) : k.write [] = k := by
  obtain ⟨severityLevel, target, pid, written, running⟩ := k
  cases target with
  | none => rfl
  | some t => simp [Sink.write]

/-- Where `open` goes, and what is there then. -/
def Sink.open (fn : Option String) (append found : Bool) (k : Sink) : Sink :=
  match named fn with
  | none => { k with target := some .stdout }
  | some fn =>
    if found then
      { k with
        target := some (.file fn)
        written := if append then k.written else Function.update k.written (.file fn) [] }
    else { k with target := none }

def sink : Machine Sink StreamCall StreamRet where
  step k
    | .open fn append found =>
      let k' := k.open fn append found.isSome
      (.bool k'.target.isSome, k')
    | .isOpen => (.bool k.target.isSome, k)
    | .close => (.void, { k with target := none })
    | .setLevel sev => (.level k.severityLevel, { k with severityLevel := sev })
    | .message printer text _ _ =>
      let k' := k.write (k.text printer text)
      if printer.isAssertion then (.aborted, { k' with running := false }) else (.void, k')

def Sink.init (severityLevel : Severity) (pid : ℕ) (written : Target → List Char) : Sink :=
  ⟨severityLevel, none, pid, written, true⟩

/-! ## The streams are the sink -/

section Refinement

variable {stdout : Address} {others : Address → Option (Stream Target)} {s : Output} {k : Sink}

/-- The streams of the program: its own, `stdout`, and the log's. Nothing is in the buffers. -/
def streamsOf (stdout : Address) (others : Address → Option (Stream Target))
    (log : Option (Address × Target)) : Address → Option (Stream Target) :=
  match log with
  | none => Function.update others stdout (some ⟨.stdout, []⟩)
  | some (stream, t) =>
    Function.update (Function.update others stdout (some ⟨.stdout, []⟩)) stream (some ⟨t, []⟩)

/-- The log's stream is `stdout`, or it is none of the program's own. -/
structure Backs (stdout : Address) (others : Address → Option (Stream Target))
    (log : Option (Address × Target)) (s : Output) (k : Sink) : Prop where
  severityLevel : s.severityLevel = k.severityLevel
  pid : s.pid = k.pid
  running : s.running = k.running
  written : s.io.written = k.written
  logStream : s.logStream = log.map Prod.fst
  target : k.target = log.map Prod.snd
  streams : s.io.streams = streamsOf stdout others log
  own : ∀ stream t, log = some (stream, t) →
    (stream = stdout ∧ t = .stdout) ∨ (stream ≠ stdout ∧ others stream = none)

namespace Backs

variable {log : Option (Address × Target)} {stream : Address} {t : Target}

theorem init (severityLevel : Severity) (pid : ℕ) (written : Target → List Char) :
    Backs stdout others none (.init stdout severityLevel pid written others)
      (.init severityLevel pid written) where
  severityLevel := rfl
  pid := rfl
  running := rfl
  written := rfl
  logStream := rfl
  target := rfl
  streams := rfl
  own _ _ h := nomatch h

/-- The log's stream is open, and its buffer is empty. -/
theorem stream_eq (h : Backs stdout others (some (stream, t)) s k) :
    s.io.streams stream = some ⟨t, []⟩ := by
  rw [h.streams, streamsOf, Function.update_self]

theorem update_stdout (h : Backs stdout others (some (stdout, t)) s k) :
    streamsOf stdout others (some (stdout, t)) = streamsOf stdout others none := by
  obtain ⟨-, rfl⟩ | ⟨hne, -⟩ := h.own _ _ rfl
  · rw [streamsOf, streamsOf, Function.update_idem]
  · exact absurd rfl hne

/-- Not `stdout` and not one of the program's own, so it was not open before. -/
theorem update_file (h : Backs stdout others (some (stream, t)) s k) (hne : stream ≠ stdout) :
    Function.update (streamsOf stdout others (some (stream, t))) stream none =
      streamsOf stdout others none := by
  obtain ⟨he, -⟩ | ⟨-, hnone⟩ := h.own _ _ rfl
  · exact absurd he hne
  · have hbase : Function.update others stdout (some ⟨.stdout, []⟩) stream = none := by
      rw [Function.update_of_ne hne, hnone]
    rw [streamsOf, streamsOf, Function.update_idem, ← hbase, Function.update_eq_self]

theorem close (h : Backs stdout others log s k) :
    ∃ s', s.close stdout = some s' ∧ Backs stdout others none s' { k with target := none } := by
  match log, h with
  | none, h =>
    refine ⟨s, by rw [Output.close, h.logStream]; rfl, ?_⟩
    exact { h with target := rfl }
  | some (stream, t), h =>
    by_cases hstdout : stream = stdout
    · subst hstdout
      refine ⟨{ s with logStream := none }, by simp [Output.close, h.logStream], ?_⟩
      exact { h with
        logStream := rfl
        target := rfl
        streams := h.streams.trans h.update_stdout
        own := fun _ _ h => nomatch h }
    · refine ⟨_, by simp [Output.close, h.logStream, hstdout, Stdio.fclose_eq h.stream_eq]; rfl, ?_⟩
      exact { h with
        logStream := rfl
        target := rfl
        written := by simp [h.written]
        streams := by rw [h.streams, h.update_file hstdout]
        own := fun _ _ h => nomatch h }

/-- What `fopen` finds is none of the program's own streams. -/
theorem own_of_found (h : Backs stdout others log s k) (hne : stream ≠ stdout)
    (hfound : s.io.streams stream = none ∨ s.logStream = some stream) : others stream = none := by
  match log, h with
  | none, h =>
    rcases hfound with hfound | hfound
    · rwa [h.streams, streamsOf, Function.update_of_ne hne] at hfound
    · rw [h.logStream] at hfound
      cases hfound
  | some (stream', t'), h =>
    by_cases he : stream = stream'
    · subst he
      obtain ⟨he, -⟩ | ⟨-, hnone⟩ := h.own _ _ rfl
      · exact absurd he hne
      · exact hnone
    · rcases hfound with hfound | hfound
      · rwa [h.streams, streamsOf, Function.update_of_ne he, Function.update_of_ne hne] at hfound
      · rw [h.logStream] at hfound
        exact absurd (Option.some.inj hfound).symm he

theorem opened (h : Backs stdout others log s k) (fn : Option String) (append : Bool)
    {found : Option Address} (hfound : ∀ stream, found = some stream →
      stream ≠ stdout ∧ (s.io.streams stream = none ∨ s.logStream = some stream)) :
    ∃ s' log', s.open stdout fn append found =
        some ((k.open fn append found.isSome).target.isSome, s') ∧
      Backs stdout others log' s' (k.open fn append found.isSome) := by
  -- Whether the log was open or not, it is closed when `fopen` is called.
  obtain ⟨s₁, hclose, h₁⟩ : ∃ s₁, (if s.isOpen then s.close stdout else some s) = some s₁ ∧
      Backs stdout others none s₁ { k with target := none } := by
    split
    · exact h.close
    · next hnot =>
      have hlog : log = none := by simpa [Output.isOpen, h.logStream] using hnot
      subst hlog
      exact ⟨s, rfl, { h with target := rfl }⟩
  simp only [Output.open, hclose, Option.map_some, Sink.open]
  cases hnamed : named fn with
  | none =>
    refine ⟨_, some (stdout, .stdout), rfl, ?_⟩
    exact { h₁ with
      logStream := rfl
      target := rfl
      streams := by rw [h₁.streams, streamsOf, streamsOf, Function.update_idem]
      own := fun _ _ he => by
        cases he
        exact .inl ⟨rfl, rfl⟩ }
  | some fn =>
    cases found with
    | none => exact ⟨_, none, rfl, { h₁ with logStream := rfl }⟩
    | some stream =>
      obtain ⟨hne, hnew⟩ := hfound stream rfl
      refine ⟨_, some (stream, .file fn), rfl, ?_⟩
      exact { h₁ with
        logStream := rfl
        target := rfl
        written := by
          have hwritten := h₁.written
          simp only at hwritten
          simp [Stdio.fopen, hwritten]
        streams := by simp only [Stdio.fopen, h₁.streams, streamsOf]
        own := fun _ _ he => by
          cases he
          exact .inr ⟨hne, h.own_of_found hne hnew⟩ }

/-- What is printed has been written when the buffer is flushed. -/
theorem printed (h : Backs stdout others (some (stream, t)) s k) (head text : List Char)
    (early₁ early₂ : ℕ) :
    ∃ io₁ io₂, s.io.fprintf stream head early₁ = some io₁ ∧
      io₁.fprintf stream text early₂ = some io₂ ∧
      io₂.fflush stream = some
        ⟨Function.update s.io.written t (s.io.written t ++ (head ++ text)), s.io.streams⟩ := by
  obtain ⟨now₁, later₁, hsplit₁, hprint₁⟩ := Stdio.fprintf_eq h.stream_eq head early₁
  have hstream₁ : (⟨Function.update s.io.written t now₁,
      Function.update s.io.streams stream (some ⟨t, later₁⟩)⟩ : Stdio Address Target).streams
        stream = some ⟨t, later₁⟩ := Function.update_self ..
  obtain ⟨now₂, later₂, hsplit₂, hprint₂⟩ := Stdio.fprintf_eq hstream₁ text early₂
  refine ⟨_, _, hprint₁, hprint₂, ?_⟩
  have hall : now₂ ++ later₂ = s.io.written t ++ (head ++ text) := by
    simp only [Function.update_self] at hsplit₂
    rw [hsplit₂, ← List.append_assoc, hsplit₁, List.nil_append, List.append_assoc]
  have hstreams : Function.update s.io.streams stream (some ⟨t, []⟩) = s.io.streams := by
    rw [← h.stream_eq, Function.update_eq_self]
  rw [Stdio.fflush_eq (Function.update_self ..)]
  simp only [Function.update_idem, Function.update_self, hall, hstreams]

theorem write (h : Backs stdout others log s k) (printer : MsgPrinter) (text : String)
    (early₁ early₂ : ℕ) :
    ∃ s', s.write printer text early₁ early₂ = some s' ∧
      Backs stdout others log s' (k.write (k.text printer text)) := by
  by_cases hlevel : k.severityLevel.value ≤ printer.level.value
  · match log, h with
    | none, h =>
      have htarget : k.target = none := h.target
      have hstream : s.logStream = none := h.logStream
      refine ⟨s, by simp [Output.write, h.severityLevel, hlevel, hstream], ?_⟩
      rwa [Sink.write, htarget]
    | some (stream, t), h =>
      have htarget : k.target = some t := h.target
      have hstream : s.logStream = some stream := h.logStream
      obtain ⟨io₁, io₂, hprint₁, hprint₂, hflush⟩ :=
        h.printed (header s.pid printer.data) text.toList early₁ early₂
      have hwrite : s.write printer text early₁ early₂ = some { s with
          io := ⟨Function.update s.io.written t
            (s.io.written t ++ (header s.pid printer.data ++ text.toList)), s.io.streams⟩ } := by
        simp [Output.write, h.severityLevel, hlevel, hstream, hprint₁, hprint₂, hflush]
      refine ⟨_, hwrite, ?_⟩
      simp only [Sink.write, htarget, Sink.text, hlevel, if_true]
      exact { h with
        target := rfl
        written := by simp only [h.written, h.pid] }
  · refine ⟨s, by simp [Output.write, h.severityLevel, hlevel], ?_⟩
    rwa [Sink.text, if_neg hlevel, Sink.write_nil]

theorem message (h : Backs stdout others log s k) (printer : MsgPrinter) (text : String)
    (early₁ early₂ : ℕ) :
    ∃ s', s.message printer text early₁ early₂ = some s' ∧
      Backs stdout others log s'
        (if printer.isAssertion then { k.write (k.text printer text) with running := false }
          else k.write (k.text printer text)) := by
  obtain ⟨s₁, hwrite, h₁⟩ := h.write printer text early₁ early₂
  by_cases hassn : printer.isAssertion
  · rw [if_pos hassn]
    match log, h₁ with
    | none, h₁ =>
      have hstream : s₁.logStream = none := h₁.logStream
      refine ⟨{ s₁ with running := false }, ?_, { h₁ with running := rfl }⟩
      simp [Output.message, hwrite, hassn, hstream]
    | some (stream, t), h₁ =>
      have hstream : s₁.logStream = some stream := h₁.logStream
      have hflush := Stdio.fflush_eq h₁.stream_eq
      refine ⟨_, by simp [Output.message, hwrite, hassn, hstream, hflush]; rfl, ?_⟩
      exact { h₁ with
        running := rfl
        logStream := rfl
        written := by simp [h₁.written]
        streams := by rw [← h₁.stream_eq, Function.update_eq_self, h₁.streams] }
  · rw [if_neg hassn]
    exact ⟨s₁, by simp [Output.message, hwrite, hassn], h₁⟩

end Backs

/-- **One call**, of the code and of the sink. -/
theorem output_step (h : ∃ log, Backs stdout others log s k) (c : StreamCall)
    (hok : StreamOk stdout s c) :
    ((output stdout).step s c).1 = (sink.step k c).1 ∧
      ∃ log, Backs stdout others log ((output stdout).step s c).2 (sink.step k c).2 := by
  obtain ⟨log, h⟩ := h
  cases c with
  | «open» fn append found =>
    obtain ⟨s', log', hopen, h'⟩ := h.opened fn append hok.2
    simp only [output, sink, hopen]
    exact ⟨trivial, log', h'⟩
  | isOpen =>
    refine ⟨?_, log, h⟩
    simp [output, sink, Output.isOpen, h.logStream, h.target]
  | close =>
    obtain ⟨s', hclose, h'⟩ := h.close
    simp only [output, sink, hclose]
    exact ⟨rfl, none, h'⟩
  | setLevel sev =>
    simp only [output, sink, h.severityLevel]
    exact ⟨trivial, log, { h with severityLevel := rfl }⟩
  | message printer text early₁ early₂ =>
    obtain ⟨s', hmessage, h'⟩ := h.message printer text early₁ early₂
    simp only [output, sink, hmessage, Output.answered]
    by_cases hassn : printer.isAssertion
    · simp only [hassn, if_true] at h' ⊢
      exact ⟨trivial, log, h'⟩
    · simp only [hassn, Bool.false_eq_true, if_false] at h' ⊢
      exact ⟨trivial, log, h'⟩

theorem sink_ne_fault (k : Sink) (c : StreamCall) : (sink.step k c).1 ≠ .fault := by
  cases c with
  | message printer text early₁ early₂ =>
    simp only [sink]
    split <;> simp
  | _ => simp [sink]

end Refinement

/-! ## Runs -/

section Runs

variable (stdout : Address) (severityLevel : Severity) (pid : ℕ) (written : Target → List Char)
  (others : Address → Option (Stream Target))

/-- **The log is what it is for, and nothing waits in a buffer.** After every call of every run,
what has been printed is in its file; no stream is used that is not open; and the streams that are
open are those of the program, `stdout`, and the one that the log is written to. -/
theorem output_refines (calls : List StreamCall)
    (hok : (output stdout).Along (StreamOk stdout)
      (.init stdout severityLevel pid written others) calls) :
    let s := (output stdout).exec (.init stdout severityLevel pid written others) calls
    let k := sink.exec (.init severityLevel pid written) calls
    let trace := (output stdout).trace (.init stdout severityLevel pid written others) calls
    trace = sink.trace (.init severityLevel pid written) calls ∧ StreamRet.fault ∉ trace ∧
      s.io.written = k.written ∧ s.io.streams stdout = some ⟨.stdout, []⟩ ∧
      ∀ stream ≠ stdout, s.io.streams stream =
        if s.logStream = some stream then k.target.map (⟨·, []⟩) else others stream := by
  intro s k trace
  obtain ⟨htrace, log, hend⟩ := Machine.sim_run (R := fun s k => ∃ log, Backs stdout others log s k)
    (fun s k c h hc => output_step h c hc) calls ⟨none, .init severityLevel pid written⟩ hok
  have hnofault : ∀ r ∈ trace, r ≠ .fault :=
    Machine.trace_invariant (P := fun s => ∃ k log, Backs stdout others log s k)
      (fun s c ⟨k, h⟩ hc => by
        obtain ⟨hret, h'⟩ := output_step h c hc
        exact ⟨hret ▸ sink_ne_fault k c, _, h'⟩)
      calls ⟨_, none, .init severityLevel pid written⟩ hok
  refine ⟨htrace, fun hfault => hnofault _ hfault rfl, hend.written, ?_, fun stream hne => ?_⟩
  · rw [hend.streams]
    match log, hend with
    | none, hend => exact Function.update_self ..
    | some (stream, t), hend =>
      by_cases he : stream = stdout
      · subst he
        rw [hend.update_stdout]
        exact Function.update_self ..
      · rw [streamsOf, Function.update_of_ne (Ne.symm he), Function.update_self]
  · rw [hend.streams, hend.logStream, hend.target]
    match log with
    | none => simp [streamsOf, hne]
    | some (stream', t) =>
      by_cases he : stream = stream'
      · simp [streamsOf, he]
      · simp [streamsOf, he, Ne.symm he, hne]

/-- A file that is appended to, and closed. The library writes three characters early. -/
theorem output_refines_file :
    let stdout : Address := ⟨16, by decide⟩
    let stream : Address := ⟨32, by decide⟩
    let start := Output.init stdout .info 7 (fun _ => []) fun _ => none
    let calls := [.open (some "log") true (some stream), .message ⟨.err, false, ""⟩ "a" 3 0, .close]
    let s := (output stdout).exec start calls
    (output stdout).trace start calls = [.bool true, .void, .void] ∧
      s.io.written (.file "log") = header 7 "" ++ "a".toList ∧ s.io.streams stream = none := by
  intro stdout stream start calls s
  have hok : (output stdout).Along (StreamOk stdout) start calls := by
    refine ⟨⟨rfl, fun stream' hfound => ?_⟩, rfl, rfl, trivial⟩
    cases hfound
    exact ⟨by decide, .inl rfl⟩
  obtain ⟨htrace, -, hwritten, -, hstreams⟩ := output_refines stdout .info 7 _ _ calls hok
  refine ⟨htrace.trans ?_, (congrFun hwritten _).trans ?_, (hstreams stream (by decide)).trans ?_⟩
  · simp [calls, sink, Sink.open, named]
  · simp [calls, sink, Sink.open, Sink.init, named, Sink.write, Sink.text, Severity.value]
  · simp [calls, sink, Sink.open, named]

/-- The call empties the file `t`. -/
def Truncates (t : Target) : StreamCall → Prop
  | .open fn append found => (named fn).map .file = some t ∧ append = false ∧ found.isSome
  | _ => False

/-- What a call adds to the file `t`. -/
def Sink.added (t : Target) (k : Sink) : StreamCall → List Char
  | .message printer text _ _ => if k.target = some t then k.text printer text else []
  | _ => []

/-- What the calls of a run add to the file `t`. -/
def Sink.delivered (t : Target) (k : Sink) : List StreamCall → List Char
  | [] => []
  | c :: cs => k.added t c ++ Sink.delivered t (sink.step k c).2 cs

theorem written_step {t : Target} (k : Sink) {c : StreamCall} (hc : ¬ Truncates t c) :
    (sink.step k c).2.written t = k.written t ++ k.added t c := by
  cases c with
  | «open» fn append found =>
    simp only [sink, Sink.open, Sink.added, List.append_nil]
    cases hnamed : named fn with
    | none => rfl
    | some name =>
      cases hfound : found with
      | none => rfl
      | some stream =>
        cases append with
        | true => rfl
        | false =>
          have hne : t ≠ .file name := fun he => hc ⟨by simp [hnamed, he], rfl, by simp [hfound]⟩
          simp [Function.update_of_ne hne]
  | isOpen | close | setLevel => simp [sink, Sink.added]
  | message printer text early₁ early₂ =>
    have hwritten : (k.write (k.text printer text)).written t =
        k.written t ++ if k.target = some t then k.text printer text else [] := by
      cases htarget : k.target with
      | none => simp [Sink.write, htarget]
      | some t' =>
        by_cases he : t' = t
        · simp [Sink.write, htarget, he]
        · simp [Sink.write, htarget, he, Function.update_of_ne (Ne.symm he)]
    simp only [sink, Sink.added, ← hwritten]
    split <;> rfl

theorem written_run {t : Target} (k : Sink) (calls : List StreamCall)
    (hcalls : ∀ c ∈ calls, ¬ Truncates t c) :
    (sink.exec k calls).written t = k.written t ++ k.delivered t calls := by
  induction calls generalizing k with
  | nil => simp [Sink.delivered]
  | cons c cs ih =>
    rw [List.forall_mem_cons] at hcalls
    rw [Machine.exec_cons, ih _ hcalls.2, written_step k hcalls.1, Sink.delivered,
      List.append_assoc]

/-- **A file keeps what it has** and gets the messages in order, from any point of a run on, until
it is opened from the start. -/
theorem file_keeps (t : Target) (before calls : List StreamCall)
    (hok : (output stdout).Along (StreamOk stdout)
      (.init stdout severityLevel pid written others) (before ++ calls))
    (hcalls : ∀ c ∈ calls, ¬ Truncates t c) :
    let k := sink.exec (.init severityLevel pid written) before
    ((output stdout).exec (.init stdout severityLevel pid written others)
        (before ++ calls)).io.written t =
      ((output stdout).exec (.init stdout severityLevel pid written others)
        before).io.written t ++ k.delivered t calls := by
  intro k
  have hinit : ∃ log, Backs stdout others log (.init stdout severityLevel pid written others)
      (.init severityLevel pid written) := ⟨none, .init severityLevel pid written⟩
  obtain ⟨-, _, hall⟩ := Machine.sim_run (R := fun s k => ∃ log, Backs stdout others log s k)
    (fun s k c h hc => output_step h c hc) (before ++ calls) hinit hok
  obtain ⟨-, _, hbefore⟩ := Machine.sim_run (R := fun s k => ∃ log, Backs stdout others log s k)
    (fun s k c h hc => output_step h c hc) before hinit hok.left
  rw [hall.written, hbefore.written, Machine.exec_append]
  exact written_run k calls hcalls

/-- A file that is opened from the start and gets a message. -/
theorem file_keeps_opened :
    let stdout : Address := ⟨16, by decide⟩
    let stream : Address := ⟨32, by decide⟩
    let start := Output.init stdout .info 7 (fun _ => ['x']) fun _ => none
    ((output stdout).exec start
      ([.open (some "log") false (some stream)] ++ [.message ⟨.err, false, ""⟩ "a" 0 0])).io.written
        (.file "log") = header 7 "" ++ "a".toList := by
  intro stdout stream start
  rw [file_keeps stdout .info 7 (fun _ => ['x']) (fun _ => none) (.file "log")
    [.open (some "log") false (some stream)] [.message ⟨.err, false, ""⟩ "a" 0 0]]
  · simp [output, Output.open, Output.init, Output.isOpen, named, Stdio.fopen, Sink.delivered,
      Sink.added, Sink.text, sink, Sink.open, Sink.init, Severity.value]
  · refine ⟨⟨rfl, fun stream' hfound => ?_⟩, rfl, trivial⟩
    cases hfound
    exact ⟨by decide, .inl rfl⟩
  · simp [Truncates]

end Runs

end Log

end DBUtl
