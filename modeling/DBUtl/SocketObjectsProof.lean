import DBUtl.SocketObjects

/-!
# Every object owns its descriptor

A program sees objects, and the code has descriptors, whose numbers the system uses again as soon as
they are closed. This file shows that the numbers do not show: the objects answer as if each was its
own socket.

* `construct_eq` — a constructor leaves one descriptor more, or none.
* `objects_own` — the result: a simulation, and an account of the descriptors.
* `Settled` — a socket that listens or is connected stays as it is.
* `server_listens`, `client_connected` — so an object has the addresses it was built with for as
  long as it lives.
-/

namespace DBUtl

namespace Sockets

open CommSocket (SocketException)

/-! ## Calls behind a descriptor -/

section InTable

variable {t : Table} {sd : ℤ} {e : Endpoint}

/-- The code, run behind the descriptor `sd` of the socket `e`. -/
def Behind {α : Type*} (sd : ℤ) (e : Endpoint) (t : Table) (inTable : α × Table)
    (alone : α × Endpoint) : Prop :=
  t sd = some e → inTable = (alone.1, Function.update t sd (some alone.2))

theorem behind_orThrow (message : String) (f : SysCall) :
    Behind sd e t (orThrow (inTable sd) message f t) (orThrow alone message f e) := by
  intro h
  simp only [orThrow, inTable, h, alone]
  rfl

/-- What throws before its system call leaves the table as it is. -/
theorem behind_error (x : SocketException) :
    Behind sd e t ((.error x : Except SocketException SockAddr), t) (.error x, e) := by
  intro h
  rw [← h, Function.update_eq_self]

theorem behind_setLocalAddressAndPort (host : Option (BitVec 64)) (localPort : Port) (r : ℤ)
    (ephemeral : Port) :
    Behind sd e t (setLocalAddressAndPort (inTable sd) host localPort r ephemeral t)
      (setLocalAddressAndPort alone host localPort r ephemeral e) := by
  unfold setLocalAddressAndPort
  cases fillAddr host localPort with
  | error x => exact behind_error x
  | ok addr => exact behind_orThrow _ _

theorem behind_connect (host : Option (BitVec 64)) (foreignPort : Port) (r : ℤ)
    (name : SockAddr) :
    Behind sd e t (connect (inTable sd) host foreignPort r name t)
      (connect alone host foreignPort r name e) := by
  unfold connect
  cases fillAddr host foreignPort with
  | error x => exact behind_error x
  | ok addr => exact behind_orThrow _ _

theorem behind_method (m : Method) :
    Behind sd e t (m.body (inTable sd) t) (m.body alone e) := by
  cases m with
  | connect host foreignPort r name => exact behind_connect host foreignPort r name
  | setLocalAddressAndPort host localPort r ephemeral =>
    exact behind_setLocalAddressAndPort host localPort r ephemeral
  | setLocalPort | getLocalAddress | getLocalPort | getForeignAddress | getForeignPort =>
    exact behind_orThrow _ _

/-- The second statement of a body starts where the first has ended. -/
theorem behind_andThen {first : Except SocketException SockAddr × Table}
    {first' : Except SocketException SockAddr × Endpoint}
    {next : Table → Except SocketException SockAddr × Table}
    {next' : Endpoint → Except SocketException SockAddr × Endpoint}
    (hfirst : Behind sd e t first first')
    (hnext : ∀ e t, Behind sd e t (next t) (next' e)) :
    Behind sd e t (andThen first next) (andThen first' next') := by
  intro h
  obtain ⟨result, e'⟩ := first'
  rw [hfirst h]
  cases result with
  | error x => rfl
  | ok addr =>
    have hthere : Function.update t sd (some e') sd = some e' := Function.update_self ..
    simp only [andThen, hnext e' _ hthere, Function.update_idem]

theorem behind_ctor (how : Ctor) : Behind sd e t (how.body (inTable sd) t) (how.body alone e) := by
  cases how with
  | tcpSocket =>
    intro h
    simp [Ctor.body, ← h]
  | tcpSocketTo host foreignPort r name => exact behind_connect host foreignPort r name
  | tcpServerSocket localPort queueLen rbind ephemeral rlisten =>
    exact behind_andThen (behind_orThrow _ _) fun _ _ => behind_orThrow _ _
  | tcpServerSocketAt host localPort queueLen rbind ephemeral rlisten =>
    exact behind_andThen (behind_setLocalAddressAndPort host localPort rbind ephemeral)
      fun _ _ => behind_orThrow _ _

/-- **A constructor leaves one descriptor more, or none.** If it throws, the table is as it was. -/
theorem construct_eq (how : Ctor) (hsd : 0 ≤ sd → t sd = none) :
    construct sd how t =
      if sd < 0 then some (.error ⟨"Socket creation failed ", true⟩, t)
      else
        match how.body alone .new with
        | (.error x, _) => some (.error x, t)
        | (.ok _, e) => some (.ok sd, Function.update t sd (some e)) := by
  by_cases hneg : sd < 0
  · simp [construct, newSocket, hneg]
  · have hthere : Function.update t sd (some Endpoint.new) sd = some .new := Function.update_self ..
    simp only [construct, newSocket, hneg, if_false, behind_ctor how hthere, Function.update_idem]
    have hback : Function.update t sd none = t := by
      rw [← hsd (not_lt.mp hneg), Function.update_eq_self]
    rcases how.body alone .new with ⟨x | addr, e⟩
    · simp [close, hback]
    · rfl

end InTable

/-! ## The simulation -/

section Simulation

variable {others : Table} {s : Process}

/-- The objects own their descriptors, and `w` is what they see. -/
structure Sees (others : Table) (s : Process) (w : World) : Prop where
  owned : Owned others s.table s.objects
  view : viewOf s.table s.objects = w

theorem Sees.some {w : World} (h : Sees others s w) {p : Pointer} {sd : ℤ}
    (hp : s.objects p = some sd) : ∃ e, s.table sd = some e ∧ w p = some e := by
  obtain ⟨e, he⟩ := h.owned.there p sd hp
  exact ⟨e, he, by rw [← h.view, viewOf, hp]; exact he⟩

theorem Sees.none {w : World} (h : Sees others s w) {p : Pointer} (hp : s.objects p = none) :
    w p = none := by
  rw [← h.view, viewOf, hp]
  rfl

theorem step_new {w : World} (h : Sees others s w) {p : Pointer} {sd : ℤ} {how : Ctor}
    (hp : s.objects p = none) (hsd : 0 ≤ sd → s.table sd = none) :
    (process.step s (.new p sd how)).1 = (world.step w (.new p sd how)).1 ∧
      Sees others (process.step s (.new p sd how)).2 (world.step w (.new p sd how)).2 := by
  simp only [process, world, construct_eq how hsd]
  by_cases hneg : sd < 0
  · simp only [hneg, if_true]
    exact ⟨trivial, h⟩
  · have hfree := hsd (not_lt.mp hneg)
    simp only [hneg, if_false]
    rcases how.body alone .new with ⟨x | addr, e⟩
    · exact ⟨rfl, h⟩
    · exact ⟨rfl, h.owned.acquire hp hfree e, by rw [h.owned.view_acquire hfree, h.view]⟩

theorem step_method {w : World} (h : Sees others s w) {p : Pointer} (m : Method)
    (hp : (s.objects p).isSome) :
    (process.step s (.method p m)).1 = (world.step w (.method p m)).1 ∧
      Sees others (process.step s (.method p m)).2 (world.step w (.method p m)).2 := by
  obtain ⟨sd, hsd⟩ := Option.isSome_iff_exists.mp hp
  obtain ⟨e, he, hw⟩ := h.some hsd
  simp only [process, world, hsd, hw, behind_method m he]
  exact ⟨trivial, h.owned.write hsd _, by rw [h.owned.view_write hsd, h.view]⟩

theorem step_accept {w : World} (h : Sees others s w) {p q : Pointer} {newConnSD : ℤ}
    (conn : Endpoint) (hp : (s.objects p).isSome) (hq : s.objects q = none)
    (hnew : 0 ≤ newConnSD → s.table newConnSD = none) :
    (process.step s (.accept p q newConnSD conn)).1 =
        (world.step w (.accept p q newConnSD conn)).1 ∧
      Sees others (process.step s (.accept p q newConnSD conn)).2
        (world.step w (.accept p q newConnSD conn)).2 := by
  obtain ⟨sd, hsd⟩ := Option.isSome_iff_exists.mp hp
  obtain ⟨e, he, hw⟩ := h.some hsd
  cases hlistening : e.backlog with
  | none =>
    simp only [process, world, accept, hsd, hw, he, hlistening, Option.bind_some]
    exact ⟨rfl, h⟩
  | some queueLen =>
    by_cases hneg : newConnSD < 0
    · simp only [process, world, accept, hsd, hw, he, hlistening, hneg, Option.bind_some]
      exact ⟨rfl, h⟩
    · have hfree := hnew (not_lt.mp hneg)
      have haccept : accept sd newConnSD conn s.table =
          (.ok newConnSD, Function.update s.table newConnSD (some conn)) := by
        simp [accept, he, hlistening, hneg]
      have hworld : world.step w (.accept p q newConnSD conn) =
          (.object, Function.update w q (some conn)) := by
        simp [world, hw, hlistening, hneg]
      rw [hworld]
      simp only [process, hsd, haccept]
      exact ⟨trivial, h.owned.acquire hq hfree conn, by rw [h.owned.view_acquire hfree, h.view]⟩

theorem step_delete {w : World} (h : Sees others s w) {p : Pointer}
    (hp : (s.objects p).isSome) :
    (process.step s (.delete p)).1 = (world.step w (.delete p)).1 ∧
      Sees others (process.step s (.delete p)).2 (world.step w (.delete p)).2 := by
  obtain ⟨sd, hsd⟩ := Option.isSome_iff_exists.mp hp
  obtain ⟨e, he, hw⟩ := h.some hsd
  simp only [process, world, hsd, hw, close, he, Option.isSome_some, if_true]
  exact ⟨trivial, h.owned.release hsd, by rw [h.owned.view_release hsd, h.view]⟩

/-- **One call**, of the code and of objects that are their sockets. -/
theorem process_step {w : World} (h : Sees others s w) (c : Call) (hok : Admissible s c) :
    (process.step s c).1 = (world.step w c).1 ∧
      Sees others (process.step s c).2 (world.step w c).2 := by
  obtain ⟨-, hok⟩ := hok
  cases c with
  | new p sd how => exact step_new h hok.1 hok.2
  | method p m => exact step_method h m hok
  | accept p q newConnSD conn => exact step_accept h conn hok.1 hok.2.1 hok.2.2.1
  | delete p => exact step_delete h hok

theorem sees_init (others : Table) : Sees others (.init others) fun _ => none :=
  ⟨Owned.nobody others, rfl⟩

/-- An admissible call is answered. -/
theorem answered {w : World} (h : Sees others s w) {c : Call} (hok : Admissible s c) :
    (world.step w c).1 ≠ .badf ∧ (world.step w c).1 ≠ .dangling := by
  obtain ⟨-, hok⟩ := hok
  have hthere : ∀ {p}, (s.objects p).isSome → ∃ e, w p = some e := by
    intro p hp
    obtain ⟨sd, hsd⟩ := Option.isSome_iff_exists.mp hp
    obtain ⟨e, -, hw⟩ := h.some hsd
    exact ⟨e, hw⟩
  cases c with
  | new p sd how =>
    simp only [world]
    split
    · simp
    · rcases how.body alone .new with ⟨x | addr, e⟩ <;> simp
  | method p m =>
    obtain ⟨e, hw⟩ := hthere hok
    simp only [world, hw]
    rcases m.body alone e with ⟨x | addr, e'⟩ <;> simp [answer]
  | accept p q newConnSD conn =>
    obtain ⟨e, hw⟩ := hthere hok.1
    simp only [world, hw]
    split <;> simp
  | delete p =>
    obtain ⟨e, hw⟩ := hthere hok
    simp [world, hw]

end Simulation

/-- **Every object owns its descriptor.** In every run the objects answer as if each was its own
socket, nothing is closed that is not open, and no two objects have one descriptor. What is not an
object's is as it was: a constructor that throws leaves nothing open, and an object that is deleted
neither. -/
theorem objects_own (others : Table) (calls : List Call)
    (hok : process.Along Admissible (.init others) calls) :
    let s := process.exec (.init others) calls
    let w := world.exec (fun _ => none) calls
    let trace := process.trace (.init others) calls
    trace = world.trace (fun _ => none) calls ∧ Answer.badf ∉ trace ∧ Answer.dangling ∉ trace ∧
      (∀ p d, s.objects p = some d → others d = none ∧ s.table d = w p ∧ (w p).isSome) ∧
      (∀ p q d, s.objects p = some d → s.objects q = some d → p = q) ∧
      ∀ d, (∀ p, s.objects p ≠ some d) → s.table d = others d := by
  intro s w trace
  obtain ⟨htrace, hend⟩ := Machine.sim_run (R := Sees others)
    (fun s w c h hc => process_step h c hc) calls (sees_init others) hok
  have hanswered : ∀ r ∈ trace, r ≠ .badf ∧ r ≠ .dangling :=
    Machine.trace_invariant (P := fun s => ∃ w, Sees others s w)
      (fun s c hs hc => by
        obtain ⟨w, h⟩ := hs
        obtain ⟨hret, h'⟩ := process_step h c hc
        exact ⟨hret ▸ answered h hc, _, h'⟩)
      calls ⟨_, sees_init others⟩ hok
  refine ⟨htrace, fun hm => (hanswered _ hm).1 rfl, fun hm => (hanswered _ hm).2 rfl,
    fun p d hp => ?_, hend.owned.inj, hend.owned.frame⟩
  obtain ⟨e, he, hw⟩ := hend.some hp
  exact ⟨hend.owned.foreign p d hp, he.trans hw.symm, Option.isSome_iff_exists.mpr ⟨e, hw⟩⟩

/-! ## Settled sockets -/

/-- The socket has a name, and listens or has a peer. -/
structure Endpoint.Settled (e : Endpoint) : Prop where
  bound : e.bound = true
  settled : (e.backlog.isSome || e.peername.isSome) = true

/-- No method changes a settled socket. -/
theorem method_settled {e : Endpoint} (h : e.Settled) (m : Method) : (m.body alone e).2 = e := by
  cases m with
  | connect host foreignPort r name =>
    simp only [Method.body, connect]
    cases fillAddr host foreignPort with
    | error x => rfl
    | ok addr => simp [orThrow, alone, Sys.connect, h.settled]
  | setLocalPort localPort r ephemeral =>
    simp [Method.body, setLocalPort, orThrow, alone, Sys.bind, h.bound]
  | setLocalAddressAndPort host localPort r ephemeral =>
    simp only [Method.body, setLocalAddressAndPort]
    cases fillAddr host localPort with
    | error x => rfl
    | ok addr => simp [orThrow, alone, Sys.bind, h.bound]
  | getLocalAddress | getLocalPort => rfl
  | getForeignAddress | getForeignPort =>
    simp only [Method.body, orThrow, alone, Sys.getpeername]
    split <;> rfl

/-- Nor does anything else, while the object lives. -/
theorem world_settled {others : Table} {s : Process} {w : World} (h : Sees others s w)
    {p : Pointer} {e : Endpoint} (hp : w p = some e) (hsettled : e.Settled) {c : Call}
    (hok : Admissible s c) (hc : c ≠ .delete p) : (world.step w c).2 p = some e := by
  have hne : ∀ {q}, s.objects q = none → p ≠ q := by
    rintro q hq rfl
    rw [h.none hq] at hp
    cases hp
  obtain ⟨-, hok⟩ := hok
  cases c with
  | new q sd how =>
    simp only [world]
    split
    · exact hp
    · rcases how.body alone .new with ⟨x | addr, e'⟩
      · exact hp
      · exact (Function.update_of_ne (hne hok.1) ..).trans hp
  | method q m =>
    cases hw : w q with
    | none => simpa [world, hw] using hp
    | some e' =>
      simp only [world, hw]
      by_cases hq : p = q
      · subst hq
        obtain rfl := Option.some.inj (hp.symm.trans hw)
        rw [Function.update_self, method_settled hsettled]
      · exact (Function.update_of_ne hq ..).trans hp
  | accept q q' newConnSD conn =>
    cases hw : w q with
    | none => simpa [world, hw] using hp
    | some e' =>
      simp only [world, hw]
      split
      · exact hp
      · exact (Function.update_of_ne (hne hok.2.1) ..).trans hp
  | delete q =>
    have hq : p ≠ q := by
      rintro rfl
      exact hc rfl
    cases hw : w q with
    | none => simpa [world, hw] using hp
    | some e' =>
      simp only [world, hw]
      exact (Function.update_of_ne hq ..).trans hp

theorem settled_run {others : Table} {s : Process} {w : World} (h : Sees others s w) {p : Pointer}
    {e : Endpoint} (hp : w p = some e) (hsettled : e.Settled) (calls : List Call)
    (hok : process.Along Admissible s calls) (hcalls : .delete p ∉ calls) :
    Sees others (process.exec s calls) (world.exec w calls) ∧ world.exec w calls p = some e := by
  induction calls generalizing s w with
  | nil => exact ⟨h, hp⟩
  | cons c cs ih =>
    rw [List.mem_cons, not_or] at hcalls
    exact ih (process_step h c hok.1).2 (world_settled h hp hsettled hok.1 (Ne.symm hcalls.1)) hok.2
      hcalls.2

theorem Sees.run {others : Table} {s : Process} {w : World} (h : Sees others s w)
    (calls : List Call) (hok : process.Along Admissible s calls) :
    Sees others (process.exec s calls) (world.exec w calls) :=
  (Machine.sim_run (R := Sees others) (fun _ _ c h hc => process_step h c hc) calls h hok).2

/-- **An object stays what it was built as**, if that is settled: it has the descriptor of such a
socket, after any calls that do not delete it. -/
theorem built_run {others : Table} {before after : List Call} {p : Pointer} {sd : ℤ} {how : Ctor}
    {e : Endpoint}
    (hok : process.Along Admissible (.init others) (before ++ .new p sd how :: after))
    (hobject : (process.step (process.exec (.init others) before) (.new p sd how)).1 = .object)
    (hbody : ∀ addr, (how.body alone .new).1 = .ok addr → (how.body alone .new).2 = e)
    (hsettled : e.Settled) (hafter : .delete p ∉ after) :
    ∃ w d, Sees others (process.exec (.init others) (before ++ .new p sd how :: after)) w ∧
      (process.exec (.init others) (before ++ .new p sd how :: after)).objects p = some d ∧
      (process.exec (.init others) (before ++ .new p sd how :: after)).table d = some e ∧
      w p = some e := by
  have hbefore := (sees_init others).run before hok.left
  obtain ⟨hnew, hrest⟩ := hok.right
  obtain ⟨hret, hsees⟩ := process_step hbefore (.new p sd how) hnew
  have hwp : (world.step (world.exec (fun _ => none) before) (.new p sd how)).2 p = some e := by
    rw [hobject] at hret
    simp only [world] at hret ⊢
    split at hret
    · cases hret
    · next hneg =>
      rcases hbodyeq : how.body alone .new with ⟨x | addr, e'⟩
      · simp [hbodyeq] at hret
      · simp only [hbodyeq] at hbody
        simp [hneg, hbody addr rfl]
  obtain ⟨hend, hp⟩ := settled_run hsees hwp hsettled after hrest hafter
  rw [Machine.exec_append, Machine.exec_cons]
  obtain ⟨d, hd⟩ : ∃ d, (process.exec (process.step (process.exec (.init others) before)
      (.new p sd how)).2 after).objects p = some d := by
    by_contra hnone
    push Not at hnone
    rw [hend.none (Option.eq_none_iff_forall_ne_some.mpr hnone)] at hp
    cases hp
  obtain ⟨e', he', hw'⟩ := hend.some hd
  obtain rfl := Option.some.inj (hw'.symm.trans hp)
  exact ⟨_, d, hend, hd, he', hp⟩

section Built

variable {others : Table} {before after : List Call} {p : Pointer} {sd : ℤ}

/-- **A server listens** at the port it was built with, or at the one the system chose for port `0`,
for as long as it lives. -/
theorem server_listens {localPort ephemeral : Port} {queueLen rbind rlisten : ℤ}
    (hok : process.Along Admissible (.init others)
      (before ++ .new p sd (.tcpServerSocket localPort queueLen rbind ephemeral rlisten) :: after))
    (hobject : (process.step (process.exec (.init others) before)
      (.new p sd (.tcpServerSocket localPort queueLen rbind ephemeral rlisten))).1 = .object)
    (hafter : .delete p ∉ after) :
    let s := process.exec (.init others)
      (before ++ .new p sd (.tcpServerSocket localPort queueLen rbind ephemeral rlisten) :: after)
    let port := if localPort = 0 then ephemeral else localPort
    (∃ d, s.objects p = some d ∧
      s.table d = some ⟨true, some queueLen, ⟨INADDR_ANY, htons port⟩, none⟩) ∧
      (process.step s (.method p (.getLocalPort 0))).1 = .value (.port port) := by
  intro s port
  have hbody : ∀ addr, ((Ctor.tcpServerSocket localPort queueLen rbind ephemeral rlisten).body
      alone .new).1 = .ok addr →
      ((Ctor.tcpServerSocket localPort queueLen rbind ephemeral rlisten).body alone .new).2 =
        ⟨true, some queueLen, ⟨INADDR_ANY, htons port⟩, none⟩ := by
    intro addr
    by_cases hbind : rbind < 0
    · simp [Ctor.body, andThen, setLocalPort, orThrow, alone, Sys.bind, Endpoint.new, hbind]
    · by_cases hlisten : rlisten < 0
      · simp [Ctor.body, andThen, setLocalPort, setListen, orThrow, alone, Sys.bind, Sys.listen,
          Endpoint.new, hbind, hlisten]
      · by_cases hzero : localPort = 0#16
        · simp [Ctor.body, andThen, setLocalPort, setListen, orThrow, alone, Sys.bind, Sys.listen,
            Endpoint.new, hbind, hlisten, port, hzero, htons_eq_zero_iff]
        · simp [Ctor.body, andThen, setLocalPort, setListen, orThrow, alone, Sys.bind, Sys.listen,
            Endpoint.new, hbind, hlisten, port, hzero, htons_eq_zero_iff]
  obtain ⟨w, d, hsees, hd, he, hp⟩ := built_run hok hobject hbody ⟨rfl, rfl⟩ hafter
  refine ⟨⟨d, hd, he⟩, ?_⟩
  have hsome : (s.objects p).isSome := Option.isSome_iff_exists.mpr ⟨d, hd⟩
  rw [(step_method hsees (.getLocalPort 0) hsome).1]
  simp [world, hp, Method.body, orThrow, alone, Sys.getsockname, answer, Method.value]

/-- **A client is connected** to the address and the port it was built with, for as long as it
lives. The two methods ask `getpeername`, which returns `0` here. -/
theorem client_connected {host : BitVec 64} {foreignPort : Port} {r : ℤ} {name : SockAddr}
    (hok : process.Along Admissible (.init others)
      (before ++ .new p sd (.tcpSocketTo (some host) foreignPort r name) :: after))
    (hobject : (process.step (process.exec (.init others) before)
      (.new p sd (.tcpSocketTo (some host) foreignPort r name))).1 = .object)
    (hafter : .delete p ∉ after) :
    let s := process.exec (.init others)
      (before ++ .new p sd (.tcpSocketTo (some host) foreignPort r name) :: after)
    let peer : SockAddr := ⟨host.setWidth 32, htons foreignPort⟩
    (∃ d, s.objects p = some d ∧ s.table d = some ⟨true, none, name, some peer⟩) ∧
      (process.step s (.method p (.getForeignPort 0))).1 = .value (.port foreignPort) ∧
      (process.step s (.method p (.getForeignAddress 0))).1 =
        .value (.address (inet_ntoa (host.setWidth 32))) := by
  intro s peer
  have hbody : ∀ addr,
      ((Ctor.tcpSocketTo (some host) foreignPort r name).body alone .new).1 = .ok addr →
      ((Ctor.tcpSocketTo (some host) foreignPort r name).body alone .new).2 =
        ⟨true, none, name, some peer⟩ := by
    intro addr
    by_cases hconnect : r < 0
    · simp [Ctor.body, connect, fillAddr, orThrow, alone, Sys.connect, Endpoint.new, hconnect]
    · simp [Ctor.body, connect, fillAddr, orThrow, alone, Sys.connect, Endpoint.new, hconnect, peer]
  obtain ⟨w, d, hsees, hd, he, hp⟩ := built_run hok hobject hbody ⟨rfl, rfl⟩ hafter
  have hsome : (s.objects p).isSome := Option.isSome_iff_exists.mpr ⟨d, hd⟩
  refine ⟨⟨d, hd, he⟩, ?_, ?_⟩
  · rw [(step_method hsees (.getForeignPort 0) hsome).1]
    simp [world, hp, Method.body, orThrow, alone, Sys.getpeername, answer, Method.value, peer]
  · rw [(step_method hsees (.getForeignAddress 0) hsome).1]
    simp [world, hp, Method.body, orThrow, alone, Sys.getpeername, answer, Method.value, peer]

end Built

/-! ## Two runs -/

/-- A server that cannot listen, and then one that can, with the same descriptor. -/
theorem objects_own_twice :
    let p : Pointer := .tcpServerSocket 1
    let calls : List Call := [.new p 3 (.tcpServerSocket 80 5 0 0 (-1)),
      .new p 3 (.tcpServerSocket 80 5 0 0 0), .delete p]
    process.trace (.init fun _ => none) calls =
        [.threw ⟨"TCPServerSocket::setListen failed", true⟩, .object, .void] ∧
      (process.exec (.init fun _ => none) calls).table 3 = none := by
  intro p calls
  have hok : process.Along Admissible (.init fun _ => none) calls := by
    refine ⟨⟨⟨by simp, by simp⟩, rfl, fun _ => rfl⟩, ⟨⟨by simp, by simp⟩, rfl, fun _ => ?_⟩,
      ⟨trivial, ?_⟩, trivial⟩ <;> decide
  obtain ⟨htrace, -, -, -, -, hframe⟩ := objects_own (fun _ => none) calls hok
  refine ⟨htrace.trans (by decide), hframe 3 fun q => ?_⟩
  have hobjects : (process.exec (.init fun _ => none) calls).objects =
      Function.update (Function.update (fun _ => none) p (some 3)) p none := rfl
  rw [hobjects, Function.update_idem, Function.update_eq_self_iff.mpr rfl]
  simp

/-- A server at port 80, and a client that is accepted. -/
theorem server_listens_accepting :
    let p : Pointer := .tcpServerSocket 1
    let conn : Endpoint := ⟨true, none, ⟨0, htons 80⟩, some ⟨1, htons 5000⟩⟩
    let calls : List Call :=
      [.new p 3 (.tcpServerSocket 80 5 0 0 0), .accept p (.tcpSocket 2) 4 conn]
    (process.step (process.exec (.init fun _ => none) calls) (.method p (.getLocalPort 0))).1 =
      .value (.port 80) := by
  intro p conn calls
  have hok : process.Along Admissible (.init fun _ => none) ([] ++ calls) := by
    refine ⟨⟨⟨by simp, by simp⟩, rfl, fun _ => rfl⟩,
      ⟨⟨⟨1, rfl⟩, 2, rfl⟩, ?_, ?_, fun _ => ?_, rfl, rfl, rfl⟩, trivial⟩ <;> decide
  exact (server_listens hok (by decide) (by simp)).2

/-- A client that is asked to name itself, which it cannot. -/
theorem client_connected_named :
    let p : Pointer := .tcpSocket 1
    let calls : List Call := [.new p 3 (.tcpSocketTo (some 0x0100007f) 80 0 ⟨0, 0⟩),
      .method p (.setLocalPort 90 0 0)]
    (process.step (process.exec (.init fun _ => none) calls) (.method p (.getForeignPort 0))).1 =
      .value (.port 80) := by
  intro p calls
  have hok : process.Along Admissible (.init fun _ => none) ([] ++ calls) :=
    ⟨⟨.inr ⟨_, _, _, _, rfl⟩, rfl, fun _ => rfl⟩, ⟨trivial, by decide⟩, trivial⟩
  exact (client_connected hok (by decide) (by simp)).2.1

end Sockets

end DBUtl
