import DBUtl.Lib.Abort
import DBUtl.LogProof

/-!
# Statements that log

The macros of `Log.h`, in a program. A program here is a statement: it changes its own variables,
sets the level or the flag of assertions, and has sequences, branches and counted loops. It logs
with `DBUTL_LOG_FPRINTF` and `DBUTL_LOG_PRINTF`, and asserts with `DBUTL_FASSERTF` and
`DBUTL_FASSERTF_ALWAYS`. `DBUTL_ASSERT` is `DBUTL_FASSERTF` with an empty message, and the
deprecated forms are these statements with another syntax.

The arguments of a message are statements again: they can call functions that log. C++ does not say
whether the printer is acquired before the arguments are evaluated or after, nor when the level is
evaluated, which the macro mentions twice. The two choices are made at every site.

* `Stmt.run` — what the code does, with printers.
* `Stmt.spec` — what logging is for: no printers, only messages.
-/

namespace DBUtl

namespace Log

variable {σ : Type*}

/-! ## Statements -/

/-- What an expression of the program can depend on: the variables of the program, and what
`getLevel`, `getEnabled` and `isOpen` return. -/
structure Seen (σ : Type*) where
  user : σ
  severityLevel : Severity
  enabled : Bool
  isOpen : Bool

/-- Where a macro is used: what is defined there, and the order of evaluation. -/
structure Site where
  nlog : Bool := false
  ndebug : Bool := false
  printerFirst : Bool := true
  levFirst : Bool := true

/-- An assertion in the source: its file and line, and the text of its expression. -/
structure Source where
  fn : String
  line : ℤ
  expr : String

inductive Stmt (σ : Type*)
  | act (f : Seen σ → σ)
  | setLevel (sev : Seen σ → Severity)
  | setEnabled (enable : Seen σ → Bool)
  | seq (first rest : Stmt σ)
  | branch (c : Seen σ → Bool) (yes no : Stmt σ)
  | loop (n : Seen σ → ℕ) (body : Stmt σ)
  | logFprintf (site : Site) (lev : Seen σ → Severity) (args : Stmt σ) (text : Seen σ → String)
  | logPrintf (site : Site) (lev : Seen σ → Severity) (args : Stmt σ) (text : Seen σ → String)
  | fassertf (site : Site) (always : Bool) (src : Source) (check : Stmt σ) (e : Seen σ → Bool)
      (args : Stmt σ) (text : Seen σ → String)

namespace Stmt

def skip : Stmt σ := .act Seen.user

/-- `DBUTL_ASSERT(e)`. Evaluating `e` can do something first, `check`. -/
def dbutlAssert (site : Site) (src : Source) (check : Stmt σ) (e : Seen σ → Bool) : Stmt σ :=
  .fassertf site false src check e skip fun _ => ""

/-- How many printers can be out at a time. -/
def depth : Stmt σ → ℕ
  | .act _ | .setLevel _ | .setEnabled _ => 0
  | .seq first rest => max first.depth rest.depth
  | .branch _ yes no => max yes.depth no.depth
  | .loop _ body => body.depth
  | .logFprintf _ _ args _ | .logPrintf _ _ args _ => args.depth + 1
  | .fassertf _ _ _ check _ args _ => max check.depth (args.depth + 1)

end Stmt

/-- `DBUTL_LOG_LEVEL`. -/
def Site.logLevel (site : Site) (x : Seen σ) : Severity :=
  if site.nlog then .disabled else x.severityLevel

/-- `DBUTL_ASSERT_ENABLED`. -/
def Site.assertEnabled (site : Site) (x : Seen σ) : Bool := !site.ndebug && x.enabled

/-! ## What the code does -/

/-- The program, the flag of assertions, and the state of the log. -/
structure Process (σ : Type*) where
  user : σ
  enabled : Bool
  log : State

namespace Process

def seen (c : Process σ) : Seen σ :=
  ⟨c.user, c.log.severityLevel, c.enabled, c.log.logStream.isSome⟩

def getLogger (malloc : List Address → Address) (c : Process σ) : Option (Address × Process σ) :=
  (Log.getLogger (malloc c.log.allocated) c.log).map fun (mp, s) => (mp, { c with log := s })

def assertionFailed (malloc : List Address → Address) (src : Source) (c : Process σ) :
    Option (Address × Process σ) :=
  (Log.assertionFailed src.fn src.line src.expr (malloc c.log.allocated) c.log).map
    fun (mp, s) => (mp, { c with log := s })

def curry (mp : Address) (sev : Severity) (c : Process σ) : Option (Process σ) :=
  (Log.curry mp sev c.log).map fun s => { c with log := s }

def printed (c : Process σ) : Printed → Run (Process σ)
  | .done s => .done { c with log := s }
  | .aborted s => .aborted { c with log := s }

def printCurried (mp : Address) (text : String) (c : Process σ) : Run (Process σ) :=
  .need (Log.printCurried mp text c.log) c.printed

def print (mp : Address) (sev : Severity) (text : String) (c : Process σ) : Run (Process σ) :=
  .need (Log.print mp sev text c.log) c.printed

end Process

/-- What a statement does. `malloc` gets the blocks that are allocated. -/
def Stmt.run (malloc : List Address → Address) : Stmt σ → Process σ → Run (Process σ)
  | .act f, c => .done { c with user := f c.seen }
  | .setLevel sev, c => .done { c with log := (Log.setLevel (sev c.seen) c.log).2 }
  | .setEnabled enable, c => .done { c with enabled := enable c.seen }
  | .seq first rest, c => (first.run malloc c).bind (rest.run malloc)
  | .branch b yes no, c => if b c.seen then yes.run malloc c else no.run malloc c
  | .loop n body, c => Run.times (body.run malloc) (n c.seen) c
  | .logFprintf site lev args text, c =>
    if (site.logLevel c.seen).value ≤ (lev c.seen).value then
      match site.printerFirst, site.levFirst with
      | true, true =>
        .need (c.getLogger malloc) fun (mp, c₁) =>
        .need (c₁.curry mp (lev c₁.seen)) fun c₂ =>
        (args.run malloc c₂).bind fun c₃ => c₃.printCurried mp (text c₃.seen)
      | true, false =>
        .need (c.getLogger malloc) fun (mp, c₁) =>
        (args.run malloc c₁).bind fun c₂ =>
        .need (c₂.curry mp (lev c₂.seen)) fun c₃ => c₃.printCurried mp (text c₃.seen)
      | false, levFirst =>
        (args.run malloc c).bind fun c₁ =>
        .need (c₁.getLogger malloc) fun (mp, c₂) =>
        .need (c₂.curry mp (lev (if levFirst then c.seen else c₂.seen))) fun c₃ =>
        c₃.printCurried mp (text c₃.seen)
    else .done c
  | .logPrintf site lev args text, c =>
    if (site.logLevel c.seen).value < Severity.disabled.value then
      match site.printerFirst with
      | true =>
        .need (c.getLogger malloc) fun (mp, c₁) =>
        (args.run malloc c₁).bind fun c₂ =>
        c₂.print mp (lev (if site.levFirst then c₁.seen else c₂.seen)) (text c₂.seen)
      | false =>
        (args.run malloc c).bind fun c₁ =>
        .need (c₁.getLogger malloc) fun (mp, c₂) =>
        c₂.print mp (lev (if site.levFirst then c.seen else c₂.seen)) (text c₂.seen)
    else .done c
  | .fassertf site always src check e args text, c =>
    if always || site.assertEnabled c.seen then
      (check.run malloc c).bind fun c₁ =>
      if e c₁.seen then .done c₁
      else
        match site.printerFirst with
        | true =>
          .need (c₁.assertionFailed malloc src) fun (mp, c₂) =>
          (args.run malloc c₂).bind fun c₃ => c₃.printCurried mp (text c₃.seen)
        | false =>
          (args.run malloc c₁).bind fun c₂ =>
          .need (c₂.assertionFailed malloc src) fun (mp, c₃) =>
          c₃.printCurried mp (text c₃.seen)
    else .done c

/-! ## What logging is for -/

/-- The process without its printers. -/
structure Plain (σ : Type*) where
  user : σ
  enabled : Bool
  severityLevel : Severity
  logStream : Option (List Line)
  pid : ℕ

namespace Plain

def seen (a : Plain σ) : Seen σ := ⟨a.user, a.severityLevel, a.enabled, a.logStream.isSome⟩

/-- A message is written when the log is open and the level is at least the threshold. -/
def message (a : Plain σ) (sev : Severity) (data text : String) : Plain σ :=
  if a.severityLevel.value ≤ sev.value then
    { a with logStream := a.logStream.map (· ++ [⟨a.pid, data, text⟩]) }
  else a

end Plain

def Source.text (src : Source) : String :=
  String.ofList ((assertionText src.fn src.line src.expr).toList.take (BUFSZ - 1))

/-- Statements without printers: a message is written when its arguments have been evaluated. -/
def Stmt.spec : Stmt σ → Plain σ → Run (Plain σ)
  | .act f, a => .done { a with user := f a.seen }
  | .setLevel sev, a => .done { a with severityLevel := sev a.seen }
  | .setEnabled enable, a => .done { a with enabled := enable a.seen }
  | .seq first rest, a => (first.spec a).bind rest.spec
  | .branch b yes no, a => if b a.seen then yes.spec a else no.spec a
  | .loop n body, a => Run.times body.spec (n a.seen) a
  | .logFprintf site lev args text, a =>
    if (site.logLevel a.seen).value ≤ (lev a.seen).value then
      (args.spec a).bind fun a' =>
      .done (a'.message (lev (if site.levFirst then a.seen else a'.seen)) "" (text a'.seen))
    else .done a
  | .logPrintf site lev args text, a =>
    if (site.logLevel a.seen).value < Severity.disabled.value then
      (args.spec a).bind fun a' =>
      .done (a'.message (lev (if site.levFirst then a.seen else a'.seen)) "" (text a'.seen))
    else .done a
  | .fassertf site always src check e args text, a =>
    if always || site.assertEnabled a.seen then
      (check.spec a).bind fun a₁ =>
      if e a₁.seen then .done a₁
      else
        (args.spec a₁).bind fun a₂ =>
        .aborted (a₂.message .disabled src.text (text a₂.seen))
    else .done a

/-- A process, without the printers it has. -/
def Process.plain (c : Process σ) : Plain σ :=
  ⟨c.user, c.enabled, c.log.severityLevel, c.log.logStream, c.log.pid⟩

@[simp] theorem Process.plain_seen (c : Process σ) : c.plain.seen = c.seen := rfl

end Log

end DBUtl
