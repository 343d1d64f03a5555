import DBUtl.LogMacrosProof

/-!
# Logging is transparent

A program that logs computes the same whether it is compiled with `DBUTL_NLOG` or not, at whatever
level, with the log open or closed, and in whatever order a compiler evaluates the parts of a
message. It has to keep two rules: outside the arguments of messages it does not look at the level
or at the log, and the arguments of a message leave its variables alone and come to an end, so that
an assertion in them holds. (One that fails would abort the program only where the message is
evaluated.) An assertion is not a message: its expression is the program's, and its arguments are
evaluated only when it fails.

* `Harmless.spec`, `Unaware.spec` — the two rules, in the semantics without printers.
* `statement_transparent` — the result, for the code.
-/

namespace DBUtl

namespace Log

variable {σ : Type*}

/-- The variables of the program are the same, and the flag of assertions. -/
def Agree (a a' : Plain σ) : Prop := a.user = a'.user ∧ a.enabled = a'.enabled

theorem Agree.refl (a : Plain σ) : Agree a a := ⟨rfl, rfl⟩

theorem Agree.symm {a a' : Plain σ} (h : Agree a a') : Agree a' a := ⟨h.1.symm, h.2.symm⟩

theorem Agree.trans {a a' a'' : Plain σ} (h : Agree a a') (h' : Agree a' a'') : Agree a a'' :=
  ⟨h.1.trans h'.1, h.2.trans h'.2⟩

theorem message_agree (a : Plain σ) (sev : Severity) (data text : String) :
    Agree (a.message sev data text) a := by
  unfold Plain.message
  split <;> exact ⟨rfl, rfl⟩

/-- An expression that does not look at the level or at the log. -/
def Blind {α : Type*} (f : Seen σ → α) : Prop :=
  ∀ x y, x.user = y.user → x.enabled = y.enabled → f x = f y

theorem Blind.seen {α : Type*} {f : Seen σ → α} (hf : Blind f) {a a' : Plain σ} (h : Agree a a') :
    f a.seen = f a'.seen := hf _ _ h.1 h.2

namespace Stmt

/-- Its effect, if it has one, is on the log and its level. The expression of every assertion in it
is true, whatever the state. -/
def Harmless : Stmt σ → Prop
  | .act f => ∀ x, f x = x.user
  | .setLevel _ => True
  | .setEnabled enable => ∀ x, enable x = x.enabled
  | .seq first rest => first.Harmless ∧ rest.Harmless
  | .branch _ yes no => yes.Harmless ∧ no.Harmless
  | .loop _ body => body.Harmless
  | .logFprintf _ _ args _ | .logPrintf _ _ args _ => args.Harmless
  | .fassertf _ _ _ check e _ _ => check.Harmless ∧ ∀ x, e x = true

/-- The two rules. -/
def Unaware : Stmt σ → Prop
  | .act f => Blind f
  | .setLevel _ => True
  | .setEnabled enable => Blind enable
  | .seq first rest => first.Unaware ∧ rest.Unaware
  | .branch c yes no => Blind c ∧ yes.Unaware ∧ no.Unaware
  | .loop n body => Blind n ∧ body.Unaware
  | .logFprintf _ _ args _ | .logPrintf _ _ args _ => args.Harmless
  | .fassertf _ _ _ check e args _ => check.Unaware ∧ Blind e ∧ args.Unaware

/-- The statement, compiled in another way. -/
def compiled (f : Site → Site) : Stmt σ → Stmt σ
  | .act g => .act g
  | .setLevel sev => .setLevel sev
  | .setEnabled enable => .setEnabled enable
  | .seq first rest => .seq (first.compiled f) (rest.compiled f)
  | .branch c yes no => .branch c (yes.compiled f) (no.compiled f)
  | .loop n body => .loop n (body.compiled f)
  | .logFprintf site lev args text => .logFprintf (f site) lev (args.compiled f) text
  | .logPrintf site lev args text => .logPrintf (f site) lev (args.compiled f) text
  | .fassertf site always src check e args text =>
    .fassertf (f site) always src (check.compiled f) e (args.compiled f) text

theorem depth_compiled (f : Site → Site) (stmt : Stmt σ) :
    (stmt.compiled f).depth = stmt.depth := by
  induction stmt with
  | act | setLevel | setEnabled => rfl
  | seq first rest ihfirst ihrest => simp [compiled, depth, ihfirst, ihrest]
  | branch c yes no ihyes ihno => simp [compiled, depth, ihyes, ihno]
  | loop n body ih => simp [compiled, depth, ih]
  | logFprintf site lev args text ih | logPrintf site lev args text ih =>
    simp [compiled, depth, ih]
  | fassertf site always src check e args text ihcheck ihargs =>
    simp [compiled, depth, ihcheck, ihargs]

/-- What is harmless comes to an end, with the variables as they were. -/
theorem Harmless.spec {stmt : Stmt σ} (h : stmt.Harmless) (f : Site → Site) (a : Plain σ) :
    ∃ a', (stmt.compiled f).spec a = .done a' ∧ Agree a a' := by
  induction stmt generalizing a with
  | act g => exact ⟨_, rfl, (h a.seen).symm, rfl⟩
  | setLevel sev => exact ⟨_, rfl, rfl, rfl⟩
  | setEnabled enable => exact ⟨_, rfl, rfl, (h a.seen).symm⟩
  | seq first rest ihfirst ihrest =>
    obtain ⟨a₁, hfirst, hagree⟩ := ihfirst h.1 a
    obtain ⟨a₂, hrest, hagree'⟩ := ihrest h.2 a₁
    exact ⟨a₂, by simp [compiled, Stmt.spec, hfirst, hrest, Run.bind], hagree.trans hagree'⟩
  | branch c yes no ihyes ihno =>
    simp only [compiled, Stmt.spec]
    split
    · exact ihyes h.1 a
    · exact ihno h.2 a
  | loop n body ih =>
    simp only [compiled, Stmt.spec]
    generalize n a.seen = k
    induction k generalizing a with
    | zero => exact ⟨a, rfl, .refl a⟩
    | succ k ihk =>
      obtain ⟨a₁, hbody, hagree⟩ := ih h a
      obtain ⟨a₂, hrest, hagree'⟩ := ihk a₁
      exact ⟨a₂, by simp [Run.times, hbody, hrest, Run.bind], hagree.trans hagree'⟩
  | logFprintf site lev args text ih | logPrintf site lev args text ih =>
    simp only [compiled, Stmt.spec]
    split
    · obtain ⟨a', hargs, hagree⟩ := ih h a
      rw [hargs]
      exact ⟨_, rfl, hagree.trans (message_agree ..).symm⟩
    · exact ⟨a, rfl, .refl a⟩
  | fassertf site always src check e args text ihcheck =>
    simp only [compiled, Stmt.spec]
    split
    · obtain ⟨a', hcheck, hagree⟩ := ihcheck h.1 a
      exact ⟨a', by simp [hcheck, Run.bind, h.2], hagree⟩
    · exact ⟨a, rfl, .refl a⟩

theorem Harmless.refines {stmt : Stmt σ} (h : stmt.Harmless) (f f' : Site → Site)
    {a a' : Plain σ} (hagree : Agree a a') :
    Run.Refines Agree Agree ((stmt.compiled f).spec a) ((stmt.compiled f').spec a') := by
  obtain ⟨b, hb, hab⟩ := h.spec f a
  obtain ⟨b', hb', hab'⟩ := h.spec f' a'
  rw [hb, hb']
  exact .done (hab.symm.trans (hagree.trans hab'))

/-- **The two rules suffice**, without printers. A message is harmless, and whatever else a
statement does depends on the variables only. -/
theorem Unaware.spec {stmt : Stmt σ} (h : stmt.Unaware) {f f' : Site → Site}
    (hf : ∀ site, (f site).ndebug = (f' site).ndebug) {a a' : Plain σ} (hagree : Agree a a') :
    Run.Refines Agree Agree ((stmt.compiled f).spec a) ((stmt.compiled f').spec a') := by
  induction stmt generalizing a a' with
  | act g => exact .done ⟨h.seen hagree, hagree.2⟩
  | setLevel sev => exact .done hagree
  | setEnabled enable => exact .done ⟨hagree.1, h.seen hagree⟩
  | seq first rest ihfirst ihrest => exact (ihfirst h.1 hagree).bind fun b b' hb => ihrest h.2 hb
  | branch c yes no ihyes ihno =>
    simp only [compiled, Stmt.spec, h.1.seen hagree]
    split
    · exact ihyes h.2.1 hagree
    · exact ihno h.2.2 hagree
  | loop n body ih =>
    simp only [compiled, Stmt.spec, h.1.seen hagree]
    exact .times (fun b b' hb => ih h.2 hb) _ hagree
  | logFprintf site lev args text =>
    have hmessage : (logFprintf site lev args text).Harmless := h
    exact hmessage.refines f f' hagree
  | logPrintf site lev args text =>
    have hmessage : (logPrintf site lev args text).Harmless := h
    exact hmessage.refines f f' hagree
  | fassertf site always src check e args text ihcheck ihargs =>
    have henabled : (f site).assertEnabled a.seen = (f' site).assertEnabled a'.seen := by
      simp [Site.assertEnabled, hf, Plain.seen, hagree.2]
    simp only [compiled, Stmt.spec, henabled]
    split
    · refine (ihcheck h.1 hagree).bind fun b b' hb => ?_
      rw [h.2.1.seen hb]
      split
      · exact .done hb
      · refine (ihargs h.2.2 hb).bind fun d d' hd => ?_
        exact .aborted ((message_agree ..).trans (hd.trans (message_agree ..).symm))
    · exact .done hagree

end Stmt

/-! ## Processes -/

/-- **Logging is transparent.** Compiled in two ways and started with two logs, a program that keeps
the two rules has the same variables at the end, or aborts with the same variables: it does not look
at the level or the log outside messages, and in the arguments of messages it leaves its variables
alone and no assertion fails. -/
theorem statement_transparent {malloc malloc' : List Address → Address} {N : ℕ}
    (hmalloc : ∀ l : List Address, l.length < N → malloc l ∉ l)
    (hmalloc' : ∀ l : List Address, l.length < N → malloc' l ∉ l) (stmt : Stmt σ)
    (hdepth : stmt.depth ≤ N) (hstmt : stmt.Unaware) (f f' : Site → Site)
    (hf : ∀ site, (f site).ndebug = (f' site).ndebug) (a a' : Plain σ) (hagree : Agree a a')
    (mem mem' : Address → MsgPrinter) :
    Run.Refines
      (fun c c' => c.user = c'.user ∧ c.enabled = c'.enabled)
      (fun c c' => c.user = c'.user ∧ c.enabled = c'.enabled)
      ((stmt.compiled f).run malloc (.init a mem))
      ((stmt.compiled f').run malloc' (.init a' mem')) := by
  have hrun := run_refines hmalloc (stmt.compiled f) (Process.init_holds a mem)
    (by simpa [Stmt.depth_compiled] using hdepth)
  have hrun' := run_refines hmalloc' (stmt.compiled f') (Process.init_holds a' mem')
    (by simpa [Stmt.depth_compiled] using hdepth)
  refine (hrun.trans ((hstmt.spec hf hagree).trans hrun'.symm)).mono ?_ ?_
  · rintro c c' ⟨b, hb, b', ⟨huser, henabled⟩, hb'⟩
    rw [← hb.plain, ← hb'.plain] at *
    exact ⟨huser, henabled⟩
  · rintro c c' ⟨b, rfl, b', ⟨huser, henabled⟩, rfl⟩
    exact ⟨huser, henabled⟩

/-- A message with and without `DBUTL_NLOG`, between two assignments. -/
theorem statement_transparent_nlog :
    let one : Address := ⟨16, by decide⟩
    let stmt : Stmt ℕ := .seq (.act fun x => x.user + 1)
      (.seq (.logFprintf {} (fun _ => .err) .skip fun x => toString x.user)
        (.act fun x => x.user * 2))
    let a : Plain ℕ := ⟨5, true, .info, some [], 7⟩
    let a' : Plain ℕ := ⟨5, true, .emerg, none, 8⟩
    Run.Refines
      (fun c c' => c.user = c'.user ∧ c.enabled = c'.enabled)
      (fun c c' => c.user = c'.user ∧ c.enabled = c'.enabled)
      ((stmt.compiled id).run (fun _ => one) (.init a fun _ => ⟨.zero, false, ""⟩))
      ((stmt.compiled fun site => { site with nlog := true }).run (fun _ => one)
        (.init a' fun _ => ⟨.zero, false, ""⟩)) := by
  intro one stmt a a'
  have hmalloc : ∀ l : List Address, l.length < 1 → one ∉ l := by
    intro l hl
    have hnil : l = [] := List.length_eq_zero_iff.1 (by omega)
    simp [hnil]
  have hstmt : stmt.Unaware :=
    ⟨fun x y h _ => congrArg (· + 1) h, fun _ => rfl, fun x y h _ => congrArg (· * 2) h⟩
  exact statement_transparent hmalloc hmalloc stmt (by decide) hstmt _ _ (fun _ => rfl) a a'
    ⟨rfl, rfl⟩ _ _

end Log

end DBUtl
