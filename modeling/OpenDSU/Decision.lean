import OpenDSU.Process
import OpenDSU.Registry

/-! Whether a bound socket is in a kernel wait, as the three event calls decide it in their passes before the wait,
and as each record decides it by itself. -/

namespace OpenDSU

/-- The ports during a pass: the status of each, and the semaphores that no other process holds. -/
structure Ports where
  status : Nat → Status
  free : Nat → Bool

/-- The kernel answers by the ports, and grants what epoll can grant. -/
structure Kernel.Shows (K : Kernel) (P : Ports) : Prop where
  semWait : ∀ w, K.semWait w = true
  status : ∀ w port, K.status w port = P.status port
  semTrywait : ∀ w sem, K.semTrywait w sem = P.free sem
  epollCtl : ∀ w, K.epollCtl w = true

namespace Ports

variable (P : Ports) (held : List Nat)

def inTransfer (r : DsuSocket) : Bool := decide (0 < (P.status r.port).transfer)

/-- A `sem_trywait` gets the semaphore, if the process does not hold it. -/
def obtains (sem : Nat) : Bool := P.free sem && !held.contains sem

/-- The `fd_sem` of the record is tried and obtained. -/
def locks (r : DsuSocket) : Bool := r.monitoring && P.inTransfer r && r.blocking && P.obtains held r.fdSem

/-- A wait that is asked for the socket may have it. -/
def admits (r : DsuSocket) : Bool :=
  r.monitoring && (!P.inTransfer r || !r.blocking || P.obtains held r.fdSem)

/-- `s` is monitored and in transfer, and `r` monitored, blocking and out of it; both are asked for. -/
def Misleads (asked : Finset Int) (s r : DsuSocket) : Prop :=
  (s.fd ∈ asked ∧ s.monitoring = true ∧ P.inTransfer s = true) ∧
    r.fd ∈ asked ∧ r.monitoring = true ∧ r.blocking = true ∧ P.inTransfer r = false

/-- Both records lock the same semaphore. -/
def Contends (asked : Finset Int) (s r : DsuSocket) : Prop :=
  (s.fd ∈ asked ∧ P.locks held s = true) ∧ (r.fd ∈ asked ∧ P.locks held r = true) ∧ s.fdSem = r.fdSem

/-- The records after the pass, and the descriptors in the wait, are what each record decides by itself. -/
structure Decides (asked : Finset Int) (binds after : List DsuSocket) (waits : Int → Prop) : Prop where
  locked : after = binds.map fun r => { r with locked := decide (r.fd ∈ asked) && P.locks held r }
  waits : ∀ r ∈ binds, waits r.shadowfd ↔ r.fd ∈ asked ∧ P.admits held r = true

end Ports

/-- The program asks once for the bound sockets in `asked`: in the read set, in the array, and by the events that it
    has stored. Other shadow descriptors are not known to it. -/
structure AsksOnce (asked : Finset Int) (binds : List DsuSocket) (readfds : Option FdSet) (fds : List PollFd) : Prop where
  select : ∀ r ∈ binds, fdIsset r.fd readfds = decide (r.fd ∈ asked)
  ppoll : ∀ r ∈ binds, (fds.map PollFd.fd).count r.fd = if r.fd ∈ asked then 1 else 0
  epoll : ∀ r ∈ binds, r.ev.events ≠ 0 ↔ r.fd ∈ asked
  readfds : ∀ r ∈ binds, fdIsset r.shadowfd readfds = true → r.shadowfd = r.fd
  fds : ∀ r ∈ binds, r.shadowfd ∈ fds.map PollFd.fd → r.shadowfd = r.fd

/-- The passes of the three event calls decide alike. -/
structure SameDecision (K : Kernel) (P : Ports) (asked : Finset Int) (p : Proc) (nfds : Int)
    (readfds : Option FdSet) (fds : List PollFd) (epfd : Int) : Prop where
  select : P.Decides p.world.held asked p.binds (walk (dsuPreSelect K) p.binds (p.pass readfds nfds)).1
    (fdIsset · (walk (dsuPreSelect K) p.binds (p.pass readfds nfds)).2.readfds = true)
  ppoll : P.Decides p.world.held asked p.binds (dsuPrePoll K fds p.binds p.world).2.1
    fun d => ∃ i < (dsuPrePoll K fds p.binds p.world).1.1, ((dsuPrePoll K fds p.binds p.world).1.2 i).fd = d
  epoll : P.Decides p.world.held asked p.binds (walk (dsuEpollShadowfd K epfd) p.binds p.world).1
    fun d => (walk (dsuEpollShadowfd K epfd) p.binds p.world).2.interest epfd d ≠ []

/-- The records do not interfere. -/
structure Independent (P : Ports) (asked : Finset Int) (p : Proc) (epfd : Int) : Prop where
  /-- After a record in transfer, the call is not asked for a blocking one that is not. -/
  order : p.binds.Pairwise fun s r => ¬P.Misleads asked s r
  apart : p.binds.Pairwise fun s r => ¬P.Contends p.world.held asked s r
  /-- No lock is left from an earlier call. -/
  unlocked : ∀ r ∈ p.binds, r.locked = true → r.fd ∈ asked ∧ P.locks p.world.held r = true
  /-- No registration is left under a shadow descriptor that is not to wait, unless it is the one of the socket. -/
  unregistered : ∀ r ∈ p.binds, ¬(r.fd ∈ asked ∧ P.admits p.world.held r = true) →
    p.world.interest epfd r.shadowfd = [] ∨ r.fd ∈ asked ∧ r.shadowfd = r.fd

end OpenDSU
