import DBUtl.Log
import DBUtl.Lib.Custody

/-!
# No printer is lost

A printer that is allocated is in the cache, or it is outstanding. This file shows so for every
program that prints once with every printer it acquires, in whatever order: an acquisition takes
the printer of the cache or a new one, and a print puts the printer into the cache or frees it.

* `Program.Accounted` — the invariant.
* `getMP_accounted`, `printCurried_accounted` — the two halves of a log call.
* `printers_accounted` — the result.
-/

namespace DBUtl

namespace Log

/-- The printers that are allocated are the cached one and those in `out`. -/
abbrev State.Accounted (s : State) (out : List Address) : Prop :=
  Custody s.allocated s.mpCache out

abbrev Program.Accounted (w : Program) : Prop := w.log.Accounted w.outstanding

variable {s : State} {out : List Address} {p : Address}

/-! ## Memory -/

theorem load_eq (h : p ∈ s.allocated) : s.load p = some (s.mem p) := if_pos h

theorem store_eq (h : p ∈ s.allocated) (mp : MsgPrinter) :
    s.store p mp = some { s with mem := Function.update s.mem p mp } := if_pos h

theorem free_eq (h : p ∈ s.allocated) :
    s.free p = some { s with allocated := s.allocated.erase p } := if_pos h

@[simp] theorem write_allocated (s : State) (printer : MsgPrinter) (text : String) :
    (s.write printer text).allocated = s.allocated := by
  unfold State.write
  split <;> rfl

@[simp] theorem write_mpCache (s : State) (printer : MsgPrinter) (text : String) :
    (s.write printer text).mpCache = s.mpCache := by
  unfold State.write
  split <;> rfl

/-- Writing into an outstanding printer changes nothing else. -/
theorem store_accounted (h : s.Accounted out) (hp : p ∈ out) (mp : MsgPrinter) :
    ∃ s', s.store p mp = some s' ∧ s'.Accounted out :=
  ⟨_, store_eq (h.there_of_out hp) mp, h⟩

/-! ## Acquiring -/

theorem getMP_accounted (sev : Severity) (assn : Bool) {fresh : Address} (h : s.Accounted out)
    (hfresh : s.mpCache = none → fresh ∉ s.allocated) :
    ∃ p s', getMP sev assn fresh s = some (p, s') ∧ p ∉ out ∧ s'.Accounted (p :: out) := by
  cases hc : s.mpCache with
  | some c =>
    rw [State.Accounted, hc] at h
    have htaken : State.Accounted { s with mpCache := none } (c :: out) := h.take
    obtain ⟨s', hs', hacc⟩ := store_accounted htaken List.mem_cons_self ⟨sev, assn, ""⟩
    exact ⟨c, s', by simp [getMP, hc, hs'], h.kept_not_out, hacc⟩
  | none =>
    have hnew := hfresh hc
    have hmade : State.Accounted { s with allocated := fresh :: s.allocated } (fresh :: out) := by
      rw [State.Accounted, hc] at h ⊢
      exact h.make hnew
    obtain ⟨s', hs', hacc⟩ := store_accounted hmade List.mem_cons_self ⟨sev, assn, ""⟩
    rw [hc] at hs'
    exact ⟨fresh, s', by simp [getMP, hc, hs'], h.not_out_of_not_there hnew, hacc⟩

/-- The message is written into the printer just acquired. -/
theorem assertionFailed_accounted (fn : String) (l : ℤ) (e : String) {fresh : Address}
    (h : s.Accounted out) (hfresh : s.mpCache = none → fresh ∉ s.allocated) :
    ∃ p s', assertionFailed fn l e fresh s = some (p, s') ∧ p ∉ out ∧
      s'.Accounted (p :: out) := by
  obtain ⟨p, s', hget, hp, hacc⟩ := getMP_accounted .disabled true h hfresh
  have hload := load_eq (hacc.there_of_out List.mem_cons_self)
  obtain ⟨s'', hs'', hacc'⟩ := store_accounted hacc List.mem_cons_self
    { s'.mem p with data := String.ofList ((assertionText fn l e).toList.take (BUFSZ - 1)) }
  exact ⟨p, s'', by simp [assertionFailed, hget, hload, hs''], hp, hacc'⟩

/-! ## Printing -/

theorem curry_accounted (sev : Severity) (h : s.Accounted out) (hp : p ∈ out) :
    ∃ s', curry p sev s = some s' ∧ s'.Accounted out := by
  have hload := load_eq (h.there_of_out hp)
  obtain ⟨s', hs', hacc⟩ := store_accounted h hp { s.mem p with level := sev }
  exact ⟨s', by simp [curry, hload, hs'], hacc⟩

/-- A printer that has printed is not outstanding any more, unless the program has ended. -/
def Printed.Accounted (p : Address) (out : List Address) : Printed → Prop
  | .done s => s.Accounted (out.erase p)
  | .aborted s => s.Accounted out

theorem printCurried_accounted (text : String) (h : s.Accounted out) (hp : p ∈ out) :
    ∃ r, printCurried p text s = some r ∧ r.Accounted p out := by
  have hload := load_eq (h.there_of_out hp)
  by_cases hassn : (s.mem p).isAssertion
  · refine ⟨.aborted (s.write (s.mem p) text), by simp [printCurried, hload, hassn], ?_⟩
    simpa [Printed.Accounted, State.Accounted] using h
  · cases hc : s.mpCache with
    | none =>
      refine ⟨.done { s.write (s.mem p) text with mpCache := some p },
        by simp [printCurried, hload, hassn, hc], ?_⟩
      rw [State.Accounted, hc] at h
      simpa [Printed.Accounted, State.Accounted] using h.keep hp
    | some c =>
      have hthere : p ∈ (s.write (s.mem p) text).allocated := by simpa using h.there_of_out hp
      refine ⟨.done { s.write (s.mem p) text with
          allocated := (s.write (s.mem p) text).allocated.erase p },
        by simp [printCurried, hload, hassn, hc, free_eq hthere], ?_⟩
      rw [State.Accounted, hc] at h
      simpa [Printed.Accounted, State.Accounted, hc] using h.discard hp

theorem print_accounted (sev : Severity) (text : String) (h : s.Accounted out) (hp : p ∈ out) :
    ∃ r, print p sev text s = some r ∧ r.Accounted p out := by
  have hload := load_eq (h.there_of_out hp)
  obtain ⟨s', hs', hacc⟩ := store_accounted h hp { s.mem p with level := sev }
  obtain ⟨r, hr, hraccr⟩ := printCurried_accounted text hacc hp
  exact ⟨r, by simp [print, hload, hs', hr], hraccr⟩

/-! ## Runs -/

theorem init_accounted (severityLevel : Severity) (logStream : Option (List Line)) (pid : ℕ)
    (mem : Address → MsgPrinter) : (Program.init severityLevel logStream pid mem).Accounted :=
  Custody.nil

/-- What a program may not be told: that it touched a printer it had no right to, or a printer that
is out already. -/
def Sound (w : Program) : Ret → Prop
  | .fault => False
  | .printer p => p ∉ w.outstanding
  | _ => True

theorem Sound.ne_fault {w : Program} {r : Ret} (h : Sound w r) : r ≠ .fault := by
  intro hr
  rw [hr] at h
  exact h

theorem released_sound {w : Program} {r : Printed} (h : r.Accounted p w.outstanding) :
    Sound w (w.released p (some r)).1 ∧ (w.released p (some r)).2.Accounted := by
  cases r with
  | done s => exact ⟨trivial, h⟩
  | aborted s => exact ⟨trivial, h⟩

theorem step_accounted (w : Program) (c : Call) (h : w.Accounted) (hok : Admissible w c) :
    Sound w (program.step w c).1 ∧ (program.step w c).2.Accounted := by
  cases c with
  | setLevel sev => exact ⟨trivial, h⟩
  | getLogger fresh =>
    obtain ⟨p, s', hget, hp, hacc⟩ := getMP_accounted .zero false h hok.2
    simpa [program, getLogger, hget, Program.acquired, Sound] using ⟨hp, hacc⟩
  | assertionFailed fn l e fresh =>
    obtain ⟨p, s', hget, hp, hacc⟩ := assertionFailed_accounted fn l e h hok.2
    simpa [program, hget, Program.acquired, Sound] using ⟨hp, hacc⟩
  | curry this sev =>
    obtain ⟨s', hcurry, hacc⟩ := curry_accounted sev h hok.2
    simpa [program, hcurry, Sound] using hacc
  | print this sev text =>
    obtain ⟨r, hprint, hr⟩ := print_accounted sev text h hok.2
    simpa only [program, hprint] using released_sound hr
  | printCurried this text =>
    obtain ⟨r, hprint, hr⟩ := printCurried_accounted text h hok.2
    simpa only [program, hprint] using released_sound hr

/-- **Every printer is accounted for.** In every run, no printer is used or freed that is not
allocated, no printer is handed out that is outstanding, and what is allocated is outstanding or is
the one printer of the cache. -/
theorem printers_accounted (severityLevel : Severity) (logStream : Option (List Line)) (pid : ℕ)
    (mem : Address → MsgPrinter) (calls : List Call)
    (hok : program.Along Admissible (Program.init severityLevel logStream pid mem) calls) :
    let w := program.exec (Program.init severityLevel logStream pid mem) calls
    Ret.fault ∉ program.trace (Program.init severityLevel logStream pid mem) calls ∧
      (∀ c p, Admissible w c → (program.step w c).1 = .printer p → p ∉ w.outstanding) ∧
      w.outstanding.Nodup ∧ w.log.allocated.Nodup ∧
      (∀ p ∈ w.outstanding, p ∈ w.log.allocated) ∧
      (∀ c, w.log.mpCache = some c → c ∈ w.log.allocated ∧ c ∉ w.outstanding) ∧
      w.log.allocated.length = w.outstanding.length + (if w.log.mpCache.isSome then 1 else 0) ∧
      (w.outstanding = [] → w.log.allocated.length ≤ 1) := by
  intro w
  have hinit := init_accounted severityLevel logStream pid mem
  have hw : w.Accounted :=
    Machine.exec_invariant (fun w c h hc => (step_accounted w c h hc).2) calls hinit hok
  refine ⟨?_, ?_, hw.out_nodup, hw.nodup, fun p hp => hw.there_of_out hp, ?_, hw.length_eq, ?_⟩
  · intro hfault
    have hall := Machine.trace_invariant (Q := (· ≠ Ret.fault)) (fun w c h hc =>
      ⟨(step_accounted w c h hc).1.ne_fault, (step_accounted w c h hc).2⟩) calls hinit hok
    exact hall _ hfault rfl
  · intro c p hc hp
    have hsound := (step_accounted w c hw hc).1
    rwa [hp] at hsound
  · intro c hc
    have hkept : Custody w.log.allocated (some c) w.outstanding := hc ▸ hw
    exact ⟨hkept.there_of_kept, hkept.kept_not_out⟩
  · intro hnone
    rw [hw.length_eq, hnone, List.length_nil]
    split <;> omega

/-- A message whose arguments log a message of their own. The inner printer stays in the cache, and
the outer one is freed. -/
theorem printers_accounted_nested :
    let w₀ := Program.init .info (some []) 7 fun _ => ⟨.zero, false, ""⟩
    let outer : Address := ⟨16, by decide⟩
    let inner : Address := ⟨32, by decide⟩
    let calls := [.getLogger outer, .getLogger inner, .curry inner .err, .printCurried inner "b",
      .print outer .crit "a", .getLogger outer]
    Ret.fault ∉ program.trace w₀ calls ∧ (program.exec w₀ calls).outstanding = [inner] ∧
      (program.exec w₀ calls).log.allocated.length = 1 := by
  intro w₀ outer inner calls
  have hok : program.Along Admissible w₀ calls :=
    ⟨⟨rfl, fun _ => by decide⟩, ⟨rfl, fun _ => by decide⟩, ⟨rfl, by decide⟩, ⟨rfl, by decide⟩,
      ⟨rfl, by decide⟩, ⟨rfl, fun _ => by decide⟩, trivial⟩
  exact ⟨(printers_accounted _ _ _ _ calls hok).1, by decide, by decide⟩

end Log

end DBUtl
