import DBUtl.LogMacros

/-!
# Printers do not show

Between the test of a macro and its print lies whatever the arguments do: they log, take the cached
printer, free printers, or fail an assertion. The printer of the message is out all the while, and
its level, its flag and its text have to be there at the end.

The invariant `Holds` has the printers that are out, with their contents. Whatever a statement does,
the printers that were out before are out afterwards with the same contents, and no others are. So
the code does what the statement does without printers.

* `Holds.getLogger`, `Holds.assertionFailed`, `Holds.curry`, `Holds.printCurried` — the steps.
* `run_refines` — a statement, in any context.
* `statement_refines` — the result, for a process that starts.
-/

namespace DBUtl

namespace Log

variable {σ : Type*}

/-- The process `c` is `a` and printers, and the printers in `out` are out. -/
structure Holds (out : List (Address × MsgPrinter)) (c : Process σ) (a : Plain σ) : Prop where
  plain : c.plain = a
  accounted : c.log.Accounted (out.map Prod.fst)
  mem : ∀ x ∈ out, c.log.mem x.1 = x.2

/-- After an abort nobody asks for printers. -/
abbrev Same (c : Process σ) (a : Plain σ) : Prop := c.plain = a

/-! ## What the functions leave as it is -/

section State

variable {s s' : State} {p : Address} {sev : Severity} {assn : Bool} {fresh : Address}
  {mp : MsgPrinter} {text : String}

/-- The state `s'` is `s` but for the memory of printers. -/
structure State.SameLog (s s' : State) : Prop where
  severityLevel : s'.severityLevel = s.severityLevel
  logStream : s'.logStream = s.logStream
  pid : s'.pid = s.pid

theorem State.SameLog.refl (s : State) : s.SameLog s := ⟨rfl, rfl, rfl⟩

theorem State.SameLog.plain {c : Process σ} (h : c.log.SameLog s) :
    Process.plain { c with log := s } = c.plain := by
  simp [Process.plain, h.severityLevel, h.logStream, h.pid]

theorem store_eq_some (h : s.store p mp = some s') :
    s' = { s with mem := Function.update s.mem p mp } := by
  unfold State.store at h
  split at h
  · exact (Option.some.inj h).symm
  · cases h

theorem getMP_eq_some (h : getMP sev assn fresh s = some (p, s')) :
    s.SameLog s' ∧ s'.mem = Function.update s.mem p ⟨sev, assn, ""⟩ := by
  cases hc : s.mpCache with
  | some c =>
    simp only [getMP, hc, Option.map_eq_some_iff, Prod.mk.injEq] at h
    obtain ⟨s₁, hstore, rfl, rfl⟩ := h
    rw [store_eq_some hstore]
    exact ⟨⟨rfl, rfl, rfl⟩, rfl⟩
  | none =>
    simp only [getMP, hc, Option.map_eq_some_iff, Prod.mk.injEq] at h
    obtain ⟨s₁, hstore, rfl, rfl⟩ := h
    rw [store_eq_some hstore]
    exact ⟨⟨rfl, rfl, rfl⟩, rfl⟩

theorem assertionFailed_eq_some {src : Source}
    (h : assertionFailed src.fn src.line src.expr fresh s = some (p, s')) :
    s.SameLog s' ∧ s'.mem = Function.update s.mem p ⟨.disabled, true, src.text⟩ := by
  simp only [assertionFailed, Option.bind_eq_bind, Option.bind_eq_some_iff] at h
  obtain ⟨⟨p₁, s₁⟩, hget, printer, hload, s₂, hstore, heq⟩ := h
  obtain ⟨rfl, rfl⟩ := Prod.mk.inj (Option.some.inj heq)
  obtain ⟨hsame, hmem⟩ := getMP_eq_some hget
  have hprinter : printer = ⟨.disabled, true, ""⟩ := by
    unfold State.load at hload
    split at hload
    · rw [← Option.some.inj hload, hmem, Function.update_self]
    · cases hload
  rw [store_eq_some hstore]
  refine ⟨⟨hsame.severityLevel, hsame.logStream, hsame.pid⟩, ?_⟩
  simp only [hmem, hprinter, Function.update_idem]
  rfl

@[simp] theorem write_mem (s : State) (printer : MsgPrinter) (text : String) :
    (s.write printer text).mem = s.mem := by
  unfold State.write
  split <;> rfl

theorem write_plain (c : Process σ) (printer : MsgPrinter) (text : String) :
    Process.plain { c with log := c.log.write printer text } =
      c.plain.message printer.level printer.data text := by
  by_cases hle : c.log.severityLevel.value ≤ printer.level.value
  · simp [Process.plain, State.write, Plain.message, hle]
  · simp [Process.plain, State.write, Plain.message, hle]

/-- Printing writes the message, and then moves the printer or aborts. -/
theorem printCurried_eq_some {r : Printed} (hp : p ∈ s.allocated)
    (h : printCurried p text s = some r) :
    ((s.mem p).isAssertion = true ∧ r = .aborted (s.write (s.mem p) text)) ∨
      ((s.mem p).isAssertion = false ∧ ∃ s', r = .done s' ∧
        (s.write (s.mem p) text).SameLog s' ∧ s'.mem = s.mem) := by
  have hp' : p ∈ (s.write (s.mem p) text).allocated := by rwa [write_allocated]
  simp only [printCurried, load_eq hp, Option.bind_eq_bind, Option.bind_some] at h
  split at h
  · next hassn => exact .inl ⟨hassn, (Option.some.inj h).symm⟩
  · next hassn =>
    refine .inr ⟨by simpa using hassn, ?_⟩
    split at h
    · exact ⟨_, (Option.some.inj h).symm, ⟨rfl, rfl, rfl⟩, by simp⟩
    · rw [free_eq hp', Option.map_some] at h
      exact ⟨_, (Option.some.inj h).symm, ⟨rfl, rfl, rfl⟩, by simp⟩

end State

/-! ## The steps of a message -/

namespace Holds

variable {out : List (Address × MsgPrinter)} {c : Process σ} {a : Plain σ} {p : Address}
  {mp : MsgPrinter} {malloc : List Address → Address} {N : ℕ}

theorem seen (h : Holds out c a) : c.seen = a.seen := by rw [← h.plain, Process.plain_seen]

/-- A block that `malloc` finds is new, as long as few are out. -/
theorem fresh (h : Holds out c a) (hmalloc : ∀ l : List Address, l.length < N → malloc l ∉ l)
    (hroom : out.length < N) :
    c.log.mpCache = none → malloc c.log.allocated ∉ c.log.allocated := by
  intro hnone
  apply hmalloc
  rw [h.accounted.length_eq, hnone, List.length_map]
  exact hroom

/-- With one printer more. -/
theorem acquired (h : Holds out c a) {s : State} (hsame : c.log.SameLog s)
    (hmem : s.mem = Function.update c.log.mem p mp) (hp : p ∉ out.map Prod.fst)
    (hacc : s.Accounted (p :: out.map Prod.fst)) :
    Holds ((p, mp) :: out) { c with log := s } a where
  plain := by rw [hsame.plain, h.plain]
  accounted := by simpa using hacc
  mem x hx := by
    simp only [hmem]
    rcases List.mem_cons.1 hx with rfl | hx
    · exact Function.update_self ..
    · have hne : x.1 ≠ p := fun he => hp (he ▸ List.mem_map_of_mem hx)
      rw [Function.update_of_ne hne]
      exact h.mem x hx

theorem getLogger (h : Holds out c a) (hmalloc : ∀ l : List Address, l.length < N → malloc l ∉ l)
    (hroom : out.length < N) :
    ∃ p c', c.getLogger malloc = some (p, c') ∧ Holds ((p, ⟨.zero, false, ""⟩) :: out) c' a := by
  obtain ⟨p, s, hget, hp, hacc⟩ :=
    getMP_accounted .zero false h.accounted (h.fresh hmalloc hroom)
  obtain ⟨hsame, hmem⟩ := getMP_eq_some hget
  exact ⟨p, _, by simp [Process.getLogger, Log.getLogger, hget], h.acquired hsame hmem hp hacc⟩

theorem assertionFailed (h : Holds out c a)
    (hmalloc : ∀ l : List Address, l.length < N → malloc l ∉ l) (hroom : out.length < N)
    (src : Source) :
    ∃ p c', c.assertionFailed malloc src = some (p, c') ∧
      Holds ((p, ⟨.disabled, true, src.text⟩) :: out) c' a := by
  obtain ⟨p, s, hget, hp, hacc⟩ :=
    assertionFailed_accounted src.fn src.line src.expr h.accounted (h.fresh hmalloc hroom)
  obtain ⟨hsame, hmem⟩ := assertionFailed_eq_some hget
  exact ⟨p, _, by simp [Process.assertionFailed, hget], h.acquired hsame hmem hp hacc⟩

/-- The printer that was acquired last is allocated, and no other one is at its address. -/
theorem there (h : Holds ((p, mp) :: out) c a) : p ∈ c.log.allocated :=
  h.accounted.there_of_out (by simp)

theorem mem_head (h : Holds ((p, mp) :: out) c a) : c.log.mem p = mp :=
  h.mem (p, mp) List.mem_cons_self

theorem notMem (h : Holds ((p, mp) :: out) c a) : p ∉ out.map Prod.fst := by
  have hnodup := h.accounted.out_nodup
  rw [List.map_cons, List.nodup_cons] at hnodup
  exact hnodup.1

theorem stored (h : Holds ((p, mp) :: out) c a) (mp' : MsgPrinter) :
    c.log.store p mp' = some { c.log with mem := Function.update c.log.mem p mp' } ∧
      Holds ((p, mp') :: out)
        { c with log := { c.log with mem := Function.update c.log.mem p mp' } } a := by
  refine ⟨store_eq h.there mp', ?_, by simpa using h.accounted, ?_⟩
  · rw [← h.plain]
    rfl
  · intro x hx
    rcases List.mem_cons.1 hx with rfl | hx
    · exact Function.update_self ..
    · have hne : x.1 ≠ p := fun he => h.notMem (he ▸ List.mem_map_of_mem hx)
      exact (Function.update_of_ne hne ..).trans (h.mem x (List.mem_cons_of_mem _ hx))

theorem curry (h : Holds ((p, mp) :: out) c a) (sev : Severity) :
    ∃ c', c.curry p sev = some c' ∧ Holds ((p, { mp with level := sev }) :: out) c' a := by
  obtain ⟨hstore, hholds⟩ := h.stored { mp with level := sev }
  exact ⟨_, by simp [Process.curry, Log.curry, load_eq h.there, h.mem_head, hstore], hholds⟩

/-- A print writes the message, and gives the printer back or aborts. -/
theorem printCurried (h : Holds ((p, mp) :: out) c a) (text : String) :
    Run.Refines (Holds out) Same (c.printCurried p text)
      (if mp.isAssertion then .aborted (a.message mp.level mp.data text)
        else .done (a.message mp.level mp.data text)) := by
  obtain ⟨r, hr, hacc⟩ := printCurried_accounted text h.accounted (p := p) (by simp)
  simp only [Process.printCurried, hr, Run.need_some]
  have hplain := write_plain c mp text
  rw [h.plain] at hplain
  have hcases := printCurried_eq_some h.there hr
  rw [h.mem_head] at hcases
  obtain ⟨hassn, rfl⟩ | ⟨hassn, s', rfl, hsame, hmem⟩ := hcases
  · rw [hassn, if_pos rfl]
    exact .aborted hplain
  · rw [hassn, if_neg (by simp)]
    refine .done ⟨?_, by simpa [Printed.Accounted] using hacc, fun x hx => ?_⟩
    · rw [← hplain]
      exact State.SameLog.plain (c := { c with log := c.log.write mp text }) hsame
    · simp only [hmem]
      exact h.mem x (List.mem_cons_of_mem _ hx)

theorem print (h : Holds ((p, mp) :: out) c a) (sev : Severity) (text : String) :
    Run.Refines (Holds out) Same (c.print p sev text)
      (if mp.isAssertion then .aborted (a.message sev mp.data text)
        else .done (a.message sev mp.data text)) := by
  obtain ⟨hstore, hholds⟩ := h.stored { mp with level := sev }
  have hprint : c.print p sev text = Process.printCurried p text
      (c := { c with log := { c.log with
        mem := Function.update c.log.mem p { mp with level := sev } } }) := by
    simp [Process.print, Process.printCurried, Log.print, load_eq h.there, h.mem_head, hstore]
    rfl
  rw [hprint]
  exact hholds.printCurried text

/-- The end of a message: the printer gets its level, and prints. -/
theorem message {lev : Severity} (h : Holds ((p, ⟨lev, false, ""⟩) :: out) c a) (sev : Severity)
    (text : Seen σ → String) :
    Run.Refines (Holds out) Same (.need (c.curry p sev) fun c' => c'.printCurried p (text c'.seen))
      (.done (a.message sev "" (text a.seen))) := by
  obtain ⟨c', hcurry, h'⟩ := h.curry sev
  rw [hcurry, Run.need_some, h'.seen]
  exact h'.printCurried (text a.seen)

end Holds

/-! ## Statements -/

/-- **A statement needs no printers.** Whatever printers are out, with any contents: it does what it
does without them, and they are out afterwards with the same contents. -/
theorem run_refines {malloc : List Address → Address} {N : ℕ}
    (hmalloc : ∀ l : List Address, l.length < N → malloc l ∉ l) (stmt : Stmt σ)
    {out : List (Address × MsgPrinter)} {c : Process σ} {a : Plain σ} (h : Holds out c a)
    (hdepth : out.length + stmt.depth ≤ N) :
    Run.Refines (Holds out) Same (stmt.run malloc c) (stmt.spec a) := by
  induction stmt generalizing out c a with
  | act f => exact .done ⟨by rw [h.seen, ← h.plain]; rfl, h.accounted, h.mem⟩
  | setLevel sev => exact .done ⟨by rw [h.seen, ← h.plain]; rfl, h.accounted, h.mem⟩
  | setEnabled enable => exact .done ⟨by rw [h.seen, ← h.plain]; rfl, h.accounted, h.mem⟩
  | seq first rest ihfirst ihrest =>
    simp only [Stmt.depth] at hdepth
    exact (ihfirst h (by omega)).bind fun c' a' h' => ihrest h' (by omega)
  | branch b yes no ihyes ihno =>
    simp only [Stmt.depth] at hdepth
    simp only [Stmt.run, Stmt.spec, h.seen]
    split
    · exact ihyes h (by omega)
    · exact ihno h (by omega)
  | loop n body ih =>
    simp only [Stmt.run, Stmt.spec, h.seen]
    exact .times (fun c' a' h' => ih h' hdepth) _ h
  | logFprintf site lev args text ih =>
    obtain ⟨nlog, ndebug, printerFirst, levFirst⟩ := site
    simp only [Stmt.depth] at hdepth
    simp only [Stmt.run, Stmt.spec, h.seen]
    split
    · cases printerFirst with
      | true =>
        obtain ⟨p, c₁, hget, h₁⟩ := h.getLogger hmalloc (by omega)
        cases levFirst with
        | true =>
          -- The level is in the printer while the arguments are evaluated.
          obtain ⟨c₂, hcurry, h₂⟩ := h₁.curry (lev a.seen)
          simp only [hget, Run.need_some, h₁.seen, hcurry]
          refine (ih h₂ (by simp only [List.length_cons]; omega)).bind fun c₃ a₃ h₃ => ?_
          rw [h₃.seen]
          exact h₃.printCurried (text a₃.seen)
        | false =>
          simp only [hget, Run.need_some]
          refine (ih h₁ (by simp only [List.length_cons]; omega)).bind fun c₂ a₂ h₂ => ?_
          rw [h₂.seen]
          exact h₂.message (lev a₂.seen) text
      | false =>
        refine (ih h (by omega)).bind fun c₁ a₁ h₁ => ?_
        obtain ⟨p, c₂, hget, h₂⟩ := h₁.getLogger hmalloc (by omega)
        simp only [hget, Run.need_some, h₂.seen]
        exact h₂.message _ text
    · exact .done h
  | logPrintf site lev args text ih =>
    obtain ⟨nlog, ndebug, printerFirst, levFirst⟩ := site
    simp only [Stmt.depth] at hdepth
    simp only [Stmt.run, Stmt.spec, h.seen]
    split
    · cases printerFirst with
      | true =>
        obtain ⟨p, c₁, hget, h₁⟩ := h.getLogger hmalloc (by omega)
        simp only [hget, Run.need_some, h₁.seen]
        refine (ih h₁ (by simp only [List.length_cons]; omega)).bind fun c₂ a₂ h₂ => ?_
        rw [h₂.seen]
        exact h₂.print _ (text a₂.seen)
      | false =>
        refine (ih h (by omega)).bind fun c₁ a₁ h₁ => ?_
        obtain ⟨p, c₂, hget, h₂⟩ := h₁.getLogger hmalloc (by omega)
        simp only [hget, Run.need_some, h₂.seen]
        exact h₂.print _ (text a₁.seen)
    · exact .done h
  | fassertf site always src check e args text ihcheck ihargs =>
    obtain ⟨nlog, ndebug, printerFirst, levFirst⟩ := site
    simp only [Stmt.depth] at hdepth
    simp only [Stmt.run, Stmt.spec, h.seen]
    split
    · refine (ihcheck h (by omega)).bind fun c₁ a₁ h₁ => ?_
      rw [h₁.seen]
      split
      · exact .done h₁
      · cases printerFirst with
        | true =>
          obtain ⟨p, c₂, hget, h₂⟩ := h₁.assertionFailed hmalloc (by omega) src
          simp only [hget, Run.need_some]
          refine (ihargs h₂ (by simp only [List.length_cons]; omega)).bind fun c₃ a₃ h₃ => ?_
          rw [h₃.seen]
          exact h₃.printCurried (text a₃.seen)
        | false =>
          refine (ihargs h₁ (by omega)).bind fun c₂ a₂ h₂ => ?_
          obtain ⟨p, c₃, hget, h₃⟩ := h₂.assertionFailed hmalloc (by omega) src
          simp only [hget, Run.need_some, h₃.seen]
          exact h₃.printCurried (text a₂.seen)
    · exact .done h

/-! ## Processes -/

/-- No printer is there yet. -/
def Process.init (a : Plain σ) (mem : Address → MsgPrinter) : Process σ :=
  ⟨a.user, a.enabled, ⟨a.severityLevel, a.logStream, none, a.pid, mem, []⟩⟩

theorem Process.init_holds (a : Plain σ) (mem : Address → MsgPrinter) :
    Holds [] (Process.init a mem) a :=
  ⟨rfl, Custody.nil, fun _ hx => nomatch hx⟩

/-- **Printers do not show, and are not lost.** A program never uses a printer it has no right to;
it writes the lines, changes the variables and aborts as it does without printers; and when it ends,
at most one printer is allocated, the cached one. That is with a `malloc` that returns a fresh
address for as many printers as messages nest. -/
theorem statement_refines {malloc : List Address → Address} {N : ℕ}
    (hmalloc : ∀ l : List Address, l.length < N → malloc l ∉ l) (stmt : Stmt σ)
    (hdepth : stmt.depth ≤ N) (a : Plain σ) (mem : Address → MsgPrinter) :
    Run.Refines
      (fun c a' => c.plain = a' ∧ c.log.allocated = c.log.mpCache.toList)
      (fun c a' => c.plain = a')
      (stmt.run malloc (.init a mem)) (stmt.spec a) := by
  have hrun := run_refines hmalloc stmt (Process.init_holds a mem) (by simpa using hdepth)
  refine hrun.mono (fun c a' h => ⟨h.plain, ?_⟩) fun c a' h => h
  have hperm := h.accounted.perm
  simp only [List.map_nil, List.append_nil] at hperm
  cases hc : c.log.mpCache with
  | none => simpa [hc] using hperm
  | some p => simpa [hc] using hperm

/-- A message whose argument logs, with a memory of two blocks. -/
theorem statement_refines_nested :
    let one : Address := ⟨16, by decide⟩
    let two : Address := ⟨32, by decide⟩
    let malloc : List Address → Address := fun l => if one ∈ l then two else one
    let inner : Stmt ℕ := .logPrintf {} (fun _ => .err) .skip fun _ => "inner"
    let outer : Stmt ℕ := .logFprintf {} (fun _ => .info) inner fun x => toString x.user
    let a : Plain ℕ := ⟨5, true, .info, some [], 7⟩
    Run.Refines
      (fun c a' => c.plain = a' ∧ c.log.allocated = c.log.mpCache.toList)
      (fun c a' => c.plain = a')
      (outer.run malloc (.init a fun _ => ⟨.zero, false, ""⟩)) (outer.spec a) := by
  intro one two malloc inner outer a
  have hmalloc : ∀ l : List Address, l.length < 2 → malloc l ∉ l := by
    intro l hl
    have htwo : two ≠ one := by decide
    match l with
    | [] => simp
    | [p] =>
      by_cases hp : one = p
      · simp [malloc, ← hp, htwo]
      · simp [malloc, hp]
    | _ :: _ :: _ =>
      simp only [List.length_cons] at hl
      omega
  exact statement_refines hmalloc outer (by decide) a _

end Log

end DBUtl
