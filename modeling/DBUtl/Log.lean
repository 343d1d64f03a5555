import DBUtl.Lib.Machine
import Mathlib.Data.Int.Notation
import Mathlib.Logic.Function.Basic

/-!
# Log printers

The printers of `Log.cpp`. A log call acquires a printer, and printing with it is its last use: the
printer then goes into a cache of one, or is freed if there is one in the cache already. Arguments
of a log call can log themselves, so that several printers are out at a time.

A printer is a block of memory. Blocks that are allocated and not yet freed are listed; an access
to any other block, or freeing it, is a fault. A null pointer is `none`, so that an address is not
0. Where `malloc` finds a new block is an argument.
-/

namespace DBUtl

namespace Log

/-! ## Printers -/

inductive Severity
  | zero | debug | debug1 | debug2 | debug3 | debug4
  | trace | info | warning | err | crit | alert | emerg | highest
  deriving DecidableEq

namespace Severity

/-! The other names of three levels. -/

abbrev lowest : Severity := zero
abbrev debug0 : Severity := debug
abbrev disabled : Severity := highest

def value : Severity → ℕ
  | zero => 0
  | debug => 2
  | debug1 => 3
  | debug2 => 4
  | debug3 => 5
  | debug4 => 6
  | trace => 11
  | info => 12
  | warning => 13
  | err => 14
  | crit => 15
  | alert => 16
  | emerg => 17
  | highest => 127

end Severity

abbrev Address := { a : BitVec 64 // a ≠ 0 }

structure MsgPrinter where
  level : Severity
  isAssertion : Bool
  data : String

/-- What one message writes to the stream. -/
structure Line where
  pid : ℕ
  data : String
  text : String
  deriving DecidableEq

/-- The variables of the logging functions, and the memory their printers lie in. -/
structure State where
  severityLevel : Severity
  logStream : Option (List Line)
  mpCache : Option Address
  pid : ℕ
  mem : Address → MsgPrinter
  allocated : List Address

namespace State

def load (s : State) (p : Address) : Option MsgPrinter :=
  if p ∈ s.allocated then some (s.mem p) else none

def store (s : State) (p : Address) (mp : MsgPrinter) : Option State :=
  if p ∈ s.allocated then some { s with mem := Function.update s.mem p mp } else none

def free (s : State) (p : Address) : Option State :=
  if p ∈ s.allocated then some { s with allocated := s.allocated.erase p } else none

end State

def setLevel (sev : Severity) (s : State) : Severity × State :=
  (s.severityLevel, { s with severityLevel := sev })

/-! ## Acquiring a printer -/

/-- A printer from the cache, or from `malloc`, which returns `fresh`. -/
def getMP (sev : Severity) (assn : Bool) (fresh : Address) (s : State) :
    Option (Address × State) :=
  let (mp, s') :=
    match s.mpCache with
    | some mp => (mp, { s with mpCache := none })
    | none => (fresh, { s with allocated := fresh :: s.allocated })
  (s'.store mp ⟨sev, assn, ""⟩).map (mp, ·)

def getLogger (fresh : Address) (s : State) : Option (Address × State) :=
  getMP .zero false fresh s

def BUFSZ : ℕ := 1024

/-- What `assertionFailed` prints into the buffer of its printer. -/
def assertionText (fn : String) (l : ℤ) (e : String) : String :=
  "ASSERTION FAILED (file " ++ fn ++ " line " ++ toString l ++ ", \"" ++ e ++ "\")"

def assertionFailed (fn : String) (l : ℤ) (e : String) (fresh : Address) (s : State) :
    Option (Address × State) := do
  let (mp, s') ← getMP .disabled true fresh s
  let printer ← s'.load mp
  let s'' ← s'.store mp
    { printer with data := String.ofList ((assertionText fn l e).toList.take (BUFSZ - 1)) }
  some (mp, s'')

/-! ## Printing with it -/

def curry (this : Address) (sev : Severity) (s : State) : Option State := do
  let printer ← s.load this
  s.store this { printer with level := sev }

/-- Write the message, if its level is high enough and the log is open. -/
def State.write (s : State) (printer : MsgPrinter) (text : String) : State :=
  if s.severityLevel.value ≤ printer.level.value then
    { s with logStream := s.logStream.map (· ++ [⟨s.pid, printer.data, text⟩]) }
  else s

/-- How printing ends, unless in a fault. -/
inductive Printed
  | done (s : State)
  | aborted (s : State)

/-- Print, and give the printer back. `text` are the arguments after formatting. -/
def printCurried (this : Address) (text : String) (s : State) : Option Printed := do
  let printer ← s.load this
  let s' := s.write printer text
  if printer.isAssertion then some (.aborted s')
  else if s'.mpCache = none then some (.done { s' with mpCache := some this })
  else (s'.free this).map .done

/-- The same, after setting the level. -/
def print (this : Address) (sev : Severity) (text : String) (s : State) : Option Printed := do
  let printer ← s.load this
  let s' ← s.store this { printer with level := sev }
  printCurried this text s'

/-! ## Programs that log -/

/-- A program between two calls: it knows the printers it has acquired and not printed with. -/
structure Program where
  log : State
  outstanding : List Address
  running : Bool

/-- No printer is there yet. -/
def Program.init (severityLevel : Severity) (logStream : Option (List Line)) (pid : ℕ)
    (mem : Address → MsgPrinter) : Program :=
  ⟨⟨severityLevel, logStream, none, pid, mem, []⟩, [], true⟩

/-- A call of one of the functions. The calls that acquire a printer carry what `malloc` would
return. -/
inductive Call
  | setLevel (sev : Severity)
  | getLogger (fresh : Address)
  | assertionFailed (fn : String) (l : ℤ) (e : String) (fresh : Address)
  | curry (this : Address) (sev : Severity)
  | print (this : Address) (sev : Severity) (text : String)
  | printCurried (this : Address) (text : String)

inductive Ret
  | level (sev : Severity)
  | printer (p : Address)
  | void
  | aborted
  | fault
  deriving DecidableEq

namespace Program

def acquired (w : Program) : Option (Address × State) → Ret × Program
  | none => (.fault, w)
  | some (p, s) => (.printer p, { w with log := s, outstanding := p :: w.outstanding })

def released (w : Program) (this : Address) : Option Printed → Ret × Program
  | none => (.fault, w)
  | some (.aborted s) => (.aborted, { w with log := s, running := false })
  | some (.done s) => (.void, { w with log := s, outstanding := w.outstanding.erase this })

end Program

def program : Machine Program Call Ret where
  step w
    | .setLevel sev =>
      let (ans, s) := setLevel sev w.log
      (.level ans, { w with log := s })
    | .getLogger fresh => w.acquired (getLogger fresh w.log)
    | .assertionFailed fn l e fresh => w.acquired (assertionFailed fn l e fresh w.log)
    | .curry this sev =>
      match curry this sev w.log with
      | none => (.fault, w)
      | some s => (.void, { w with log := s })
    | .print this sev text => w.released this (print this sev text w.log)
    | .printCurried this text => w.released this (printCurried this text w.log)

/-- The program is running, `malloc` finds a block that is not allocated, and a printer is used only
while it is outstanding. -/
def Admissible (w : Program) : Call → Prop
  | .setLevel _ => w.running
  | .getLogger fresh | .assertionFailed _ _ _ fresh =>
    w.running ∧ (w.log.mpCache = none → fresh ∉ w.log.allocated)
  | .curry this _ | .print this _ _ | .printCurried this _ => w.running ∧ this ∈ w.outstanding

end Log

end DBUtl
