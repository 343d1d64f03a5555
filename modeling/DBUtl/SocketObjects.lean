import DBUtl.CommSocket
import DBUtl.Lib.Handles

/-!
# Socket objects

The classes `TCPSocket` and `TCPServerSocket`, with their bases `CommSocket` and `Socket`: the
constructors, of which three can throw with a descriptor open, the destructor, which closes it, and
the methods that name and connect a socket.

The system keeps a table of descriptors. Its calls act on the socket behind one. What they return is
up to the system, and given; a call that is not possible in the state of the socket fails. The code
is written over such calls, `sys`, and is read in two ways:

* `inTable` — the socket is behind a descriptor, in a process with other descriptors.
* `alone` — there is only the socket.

The methods that move bytes, `send`, `recv` and `recvFully`, are in `DBUtl.CommSocket`; they leave
descriptors and names alone. `setRecvTimeout` is left out.

Addresses are in network byte order, on a little-endian machine.
-/

namespace DBUtl

namespace Sockets

open CommSocket (SocketException)

/-! ## Addresses -/

abbrev Port := BitVec 16

/-- `sockaddr_in`, but for its family. -/
structure SockAddr where
  s_addr : BitVec 32
  sin_port : BitVec 16
  deriving DecidableEq

def htons (x : Port) : BitVec 16 := x.rotateLeft 8

def ntohs (x : BitVec 16) : Port := x.rotateLeft 8

@[simp] theorem ntohs_htons (x : Port) : ntohs (htons x) = x := by
  apply BitVec.eq_of_getElem_eq
  intro i hi
  by_cases hlow : i < 8
  · simp [ntohs, htons, BitVec.getElem_rotateLeft, hlow]
  · have hhigh : i - 8 < 8 := by omega
    have hback : 8 + (i - 8) = i := by omega
    simp [ntohs, htons, BitVec.getElem_rotateLeft, hlow, hhigh, hback]

theorem htons_eq_zero_iff (x : Port) : htons x = 0#16 ↔ x = 0#16 := by
  constructor
  · intro h
    rw [← ntohs_htons x, h]
    rfl
  · rintro rfl
    rfl

def INADDR_ANY : BitVec 32 := 0

def inet_ntoa (a : BitVec 32) : String :=
  ".".intercalate ((List.range 4).map fun i => toString ((a >>> (8 * i)).setWidth 8).toNat)

/-- `host` are the eight bytes at `h_addr_list[0]`, if `gethostbyname` finds anything. An address
has four. -/
def fillAddr (host : Option (BitVec 64)) (port : Port) : Except SocketException SockAddr :=
  match host with
  | none => .error ⟨"Resolve name failed with gethostbyname()", false⟩
  | some h => .ok ⟨h.setWidth 32, htons port⟩

/-! ## The system -/

/-- A socket, as the system has it: its own name and that of its peer, and the length of its queue
if it listens. -/
structure Endpoint where
  bound : Bool
  backlog : Option ℤ
  sockname : SockAddr
  peername : Option SockAddr
  deriving DecidableEq

def Endpoint.new : Endpoint := ⟨false, none, ⟨0, 0⟩, none⟩

/-- What a system call returns, and the address it stores, if it stores one. -/
structure Ret where
  ret : ℤ
  addr : SockAddr := ⟨0, 0⟩

/-- A system call on one socket. -/
abbrev SysCall := Endpoint → Ret × Endpoint

/-! What `bind`, `listen` and `connect` return is given. What they do to the socket when they succeed
is what POSIX documents. The peer of a connected socket stays its peer, since nothing here ends a
connection. -/

namespace Sys

/-- A socket has one name. Port `0` asks for any. -/
def bind (addr : SockAddr) (r : ℤ) (ephemeral : Port) : SysCall := fun e =>
  if e.bound then (⟨-1, ⟨0, 0⟩⟩, e)
  else if r < 0 then (⟨r, ⟨0, 0⟩⟩, e)
  else
    let port := if addr.sin_port = 0 then htons ephemeral else addr.sin_port
    (⟨r, ⟨0, 0⟩⟩, { e with bound := true, sockname := { addr with sin_port := port } })

def listen (queueLen : ℤ) (r : ℤ) : SysCall := fun e =>
  if e.peername.isSome then (⟨-1, ⟨0, 0⟩⟩, e)
  else if r < 0 then (⟨r, ⟨0, 0⟩⟩, e)
  else (⟨r, ⟨0, 0⟩⟩, { e with backlog := some queueLen })

/-- A socket without a name gets the name `name`. -/
def connect (dest : SockAddr) (r : ℤ) (name : SockAddr) : SysCall := fun e =>
  if e.backlog.isSome || e.peername.isSome then (⟨-1, ⟨0, 0⟩⟩, e)
  else if r < 0 then (⟨r, ⟨0, 0⟩⟩, e)
  else
    (⟨r, ⟨0, 0⟩⟩,
      { e with bound := true, sockname := if e.bound then e.sockname else name,
               peername := some dest })

def getsockname (r : ℤ) : SysCall := fun e => (⟨r, e.sockname⟩, e)

def getpeername (r : ℤ) : SysCall := fun e =>
  match e.peername with
  | none => (⟨-1, ⟨0, 0⟩⟩, e)
  | some peer => (⟨r, peer⟩, e)

end Sys

/-- The sockets of a process, by descriptor. -/
abbrev Table := ℤ → Option Endpoint

/-- A call on the socket behind `sd`. -/
def inTable (sd : ℤ) (f : SysCall) (t : Table) : Ret × Table :=
  match t sd with
  | none => (⟨-1, ⟨0, 0⟩⟩, t)
  | some e => ((f e).1, Function.update t sd (some (f e).2))

/-- A call on the socket itself. -/
def alone (f : SysCall) (e : Endpoint) : Ret × Endpoint := f e

/-- There is no result if `sd` is not open. -/
def close (sd : ℤ) (t : Table) : Option Table :=
  if (t sd).isSome then some (Function.update t sd none) else none

/-! ## The methods -/

section Code

variable {S : Type*} (sys : SysCall → S → Ret × S)

/-- A system call; its failure is thrown. -/
def orThrow (message : String) (f : SysCall) (s : S) : Except SocketException SockAddr × S :=
  let (r, s') := sys f s
  (if r.ret < 0 then .error ⟨message, true⟩ else .ok r.addr, s')

def setLocalPort (localPort : Port) (r : ℤ) (ephemeral : Port) (s : S) :
    Except SocketException SockAddr × S :=
  orThrow sys "Set local port failed with bind()"
    (Sys.bind ⟨INADDR_ANY, htons localPort⟩ r ephemeral) s

def setLocalAddressAndPort (host : Option (BitVec 64)) (localPort : Port) (r : ℤ)
    (ephemeral : Port) (s : S) : Except SocketException SockAddr × S :=
  match fillAddr host localPort with
  | .error e => (.error e, s)
  | .ok localAddr =>
    orThrow sys "Set local address and port failed with bind()" (Sys.bind localAddr r ephemeral) s

def setListen (queueLen : ℤ) (r : ℤ) (s : S) : Except SocketException SockAddr × S :=
  orThrow sys "TCPServerSocket::setListen failed" (Sys.listen queueLen r) s

def connect (host : Option (BitVec 64)) (foreignPort : Port) (r : ℤ) (name : SockAddr) (s : S) :
    Except SocketException SockAddr × S :=
  match fillAddr host foreignPort with
  | .error e => (.error e, s)
  | .ok destAddr => orThrow sys "CommSocket: connect failed" (Sys.connect destAddr r name) s

/-- The methods of an object, with what the system decides. -/
inductive Method
  | connect (host : Option (BitVec 64)) (foreignPort : Port) (r : ℤ) (name : SockAddr)
  | setLocalPort (localPort : Port) (r : ℤ) (ephemeral : Port)
  | setLocalAddressAndPort (host : Option (BitVec 64)) (localPort : Port) (r : ℤ)
      (ephemeral : Port)
  | getLocalAddress (r : ℤ)
  | getLocalPort (r : ℤ)
  | getForeignAddress (r : ℤ)
  | getForeignPort (r : ℤ)

inductive Value
  | void
  | address (text : String)
  | port (p : Port)
  deriving DecidableEq

/-- The value of a method, from the address that its system call has stored. -/
def Method.value : Method → SockAddr → Value
  | .connect .., _ | .setLocalPort .., _ | .setLocalAddressAndPort .., _ => .void
  | .getLocalAddress _, addr | .getForeignAddress _, addr => .address (inet_ntoa addr.s_addr)
  | .getLocalPort _, addr | .getForeignPort _, addr => .port (ntohs addr.sin_port)

/-- The body of a method. -/
def Method.body : Method → S → Except SocketException SockAddr × S
  | .connect host foreignPort r name => Sockets.connect sys host foreignPort r name
  | .setLocalPort localPort r ephemeral => Sockets.setLocalPort sys localPort r ephemeral
  | .setLocalAddressAndPort host localPort r ephemeral =>
    Sockets.setLocalAddressAndPort sys host localPort r ephemeral
  | .getLocalAddress r | .getLocalPort r =>
    orThrow sys "Get socket name failed" (Sys.getsockname r)
  | .getForeignAddress r =>
    orThrow sys "CommSocket::getForeignAddress failed" (Sys.getpeername r)
  | .getForeignPort r => orThrow sys "CommSocket::getForeignPort failed" (Sys.getpeername r)

/-! ## The constructors -/

/-- The constructors of the two classes. -/
inductive Ctor
  | tcpSocket
  | tcpSocketTo (host : Option (BitVec 64)) (foreignPort : Port) (r : ℤ) (name : SockAddr)
  | tcpServerSocket (localPort : Port) (queueLen : ℤ) (rbind : ℤ) (ephemeral : Port)
      (rlisten : ℤ)
  | tcpServerSocketAt (host : Option (BitVec 64)) (localPort : Port) (queueLen : ℤ) (rbind : ℤ)
      (ephemeral : Port) (rlisten : ℤ)

/-- The next statement, unless the one before has thrown. -/
def andThen {S : Type*} (first : Except SocketException SockAddr × S)
    (next : S → Except SocketException SockAddr × S) : Except SocketException SockAddr × S :=
  match first with
  | (.error e, s) => (.error e, s)
  | (.ok _, s) => next s

/-- What they do when the part of the base is built. -/
def Ctor.body : Ctor → S → Except SocketException SockAddr × S
  | .tcpSocket, s => (.ok ⟨0, 0⟩, s)
  | .tcpSocketTo host foreignPort r name, s => Sockets.connect sys host foreignPort r name s
  | .tcpServerSocket localPort queueLen rbind ephemeral rlisten, s =>
    andThen (Sockets.setLocalPort sys localPort rbind ephemeral s) (setListen sys queueLen rlisten)
  | .tcpServerSocketAt host localPort queueLen rbind ephemeral rlisten, s =>
    andThen (Sockets.setLocalAddressAndPort sys host localPort rbind ephemeral s)
      (setListen sys queueLen rlisten)

end Code

/-- `Socket::Socket(type, protocol)`. `sd` is what `socket` returns. -/
def newSocket (sd : ℤ) (t : Table) : Except SocketException ℤ × Table :=
  if sd < 0 then (.error ⟨"Socket creation failed ", true⟩, t)
  else (.ok sd, Function.update t sd (some .new))

/-- A constructor. When its body throws, the base is destroyed, which closes the descriptor; when
the constructor of the base throws, nothing is. -/
def construct (sd : ℤ) (how : Ctor) (t : Table) : Option (Except SocketException ℤ × Table) :=
  match newSocket sd t with
  | (.error e, t) => some (.error e, t)
  | (.ok sockDesc, t) =>
    match how.body (inTable sockDesc) t with
    | (.ok _, t) => some (.ok sockDesc, t)
    | (.error e, t) => (close sockDesc t).map fun t => (.error e, t)

/-- `TCPServerSocket::accept`. The system returns `newConnSD`, for the connection `conn`. -/
def accept (sockDesc newConnSD : ℤ) (conn : Endpoint) (t : Table) :
    Except SocketException ℤ × Table :=
  let listening := ((t sockDesc).bind Endpoint.backlog).isSome
  if !listening || newConnSD < 0 then (.error ⟨"TCPServerSocket::accept() failed", true⟩, t)
  else (.ok newConnSD, Function.update t newConnSD (some conn))

/-! ## A program with objects -/

/-- A pointer to an object, by its class. -/
inductive Pointer
  | tcpSocket (p : ℕ)
  | tcpServerSocket (p : ℕ)
  deriving DecidableEq

inductive Call
  | new (p : Pointer) (sd : ℤ) (how : Ctor)
  | method (p : Pointer) (m : Method)
  | accept (p q : Pointer) (newConnSD : ℤ) (conn : Endpoint)
  | delete (p : Pointer)

/-- `badf` is a call of `close` with a descriptor that is not open. -/
inductive Answer
  | object
  | value (v : Value)
  | threw (e : SocketException)
  | void
  | dangling
  | badf
  deriving DecidableEq

/-- The descriptors of the process, and the objects: each has its `sockDesc`. -/
structure Process where
  table : Table
  objects : Pointer → Option ℤ

/-- The answer of a method. -/
def answer (m : Method) : Except SocketException SockAddr → Answer
  | .ok addr => .value (m.value addr)
  | .error e => .threw e

def process : Machine Process Call Answer where
  step s
    | .new p sd how =>
      match construct sd how s.table with
      | none => (.badf, s)
      | some (.error e, t) => (.threw e, { s with table := t })
      | some (.ok sockDesc, t) => (.object, ⟨t, Function.update s.objects p (some sockDesc)⟩)
    | .method p m =>
      match s.objects p with
      | none => (.dangling, s)
      | some sockDesc =>
        let (r, t) := m.body (inTable sockDesc) s.table
        (answer m r, { s with table := t })
    | .accept p q newConnSD conn =>
      match s.objects p with
      | none => (.dangling, s)
      | some sockDesc =>
        match accept sockDesc newConnSD conn s.table with
        | (.error e, t) => (.threw e, { s with table := t })
        | (.ok newSock, t) => (.object, ⟨t, Function.update s.objects q (some newSock)⟩)
    | .delete p =>
      match s.objects p with
      | none => (.dangling, s)
      | some sockDesc =>
        match close sockDesc s.table with
        | none => (.badf, s)
        | some t => (.void, ⟨t, Function.update s.objects p none⟩)

/-- What the classes let a program call. -/
def Call.Typed : Call → Prop
  | .new (.tcpSocket _) _ how => how = .tcpSocket ∨ ∃ host port r name,
      how = .tcpSocketTo host port r name
  | .new (.tcpServerSocket _) _ how => how ≠ .tcpSocket ∧ ∀ host port r name,
      how ≠ .tcpSocketTo host port r name
  | .method (.tcpSocket _) _ => True
  | .method (.tcpServerSocket _) m => match m with
    | .connect .. | .getForeignAddress _ | .getForeignPort _ => False
    | _ => True
  | .accept p q _ _ => (∃ i, p = .tcpServerSocket i) ∧ ∃ i, q = .tcpSocket i
  | .delete _ => True

/-- Objects are used while they live, a new object is at a new place, and the system returns
descriptors that are not open. An accepted connection is connected. -/
def Admissible (s : Process) (c : Call) : Prop :=
  c.Typed ∧
    match c with
    | .new p sd _ => s.objects p = none ∧ (0 ≤ sd → s.table sd = none)
    | .method p _ | .delete p => (s.objects p).isSome
    | .accept p q newConnSD conn => (s.objects p).isSome ∧ s.objects q = none ∧
        (0 ≤ newConnSD → s.table newConnSD = none) ∧ conn.bound ∧ conn.backlog = none ∧
        conn.peername.isSome

/-! ## Objects that are their sockets -/

/-- There are no objects yet. `others` are the sockets that the process has opened otherwise. -/
def Process.init (others : Table) : Process := ⟨others, fun _ => none⟩

/-- Every object is its own socket. There are no descriptors. -/
abbrev World := Pointer → Option Endpoint

def world : Machine World Call Answer where
  step w
    | .new p sd how =>
      if sd < 0 then (.threw ⟨"Socket creation failed ", true⟩, w)
      else
        match how.body alone .new with
        | (.error e, _) => (.threw e, w)
        | (.ok _, e) => (.object, Function.update w p (some e))
    | .method p m =>
      match w p with
      | none => (.dangling, w)
      | some e => (answer m (m.body alone e).1, Function.update w p (some (m.body alone e).2))
    | .accept p q newConnSD conn =>
      match w p with
      | none => (.dangling, w)
      | some e =>
        if e.backlog.isNone || newConnSD < 0 then
          (.threw ⟨"TCPServerSocket::accept() failed", true⟩, w)
        else (.object, Function.update w q (some conn))
    | .delete p =>
      match w p with
      | none => (.dangling, w)
      | some _ => (.void, Function.update w p none)

end Sockets

end DBUtl
