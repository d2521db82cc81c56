import OpenDSU.Process

/-! A bound socket in the interest lists of the program's epoll instances: `epoll_ctl` acts on `shadowfd`, and
an `epoll_wait` leaves `fd`. -/

namespace OpenDSU

/-- What the instance has registered for the descriptor. -/
def World.interest (w : World) (epfd fd : Int) : List EpollEvent :=
  (w.regs.filter fun g => g.epfd == epfd && g.fd == fd && some g.file == (w.fdt fd).map File.id).map Reg.ev

/-- Whether epoll grants the operation on a descriptor with these registrations. -/
def plainOk (op : EpollOp) (registered : List EpollEvent) : Bool :=
  match op with
  | .add => registered.isEmpty
  | .mod | .del => !registered.isEmpty

/-- The registrations of the descriptor after the operation. -/
def plainSet (op : EpollOp) (event : EpollEvent) (registered : List EpollEvent) : List EpollEvent :=
  match op with
  | .add => if registered.isEmpty then [event] else registered
  | .mod => registered.map fun _ => event
  | .del => []

/-- What the program has registered after an operation that was granted. -/
def registered (op : EpollOp) (event : EpollEvent) : Option EpollEvent :=
  match op with
  | .add | .mod => some event
  | .del => none

/-- `epoll_ctl` on the bound socket of the record. -/
def epollCtlBound (K : Kernel) (epfd : Int) (op : EpollOp) (event : EpollEvent) (r : DsuSocket) (w : World) :
    Bool × DsuSocket × World :=
  let (ok, w) := w.epollCtl K epfd op r.shadowfd event false
  (ok, { r with ev := if op = .del then noEvent else event }, w)

/-- `program` is not in the source: what the program has registered for the socket, by the results of its calls. -/
structure Registry where
  sock : DsuSocket
  world : World
  program : Int → Option EpollEvent

inductive RegAct where
  | ctl (epfd : Int) (op : EpollOp) (event : EpollEvent)
  /-- An `epoll_wait` past `dsu_initialize_event`; its kernel wait and its handlers leave `r` and `w`. -/
  | wait (epfd : Int) (r : DsuSocket) (w : World)
  /-- Anything else, which leaves `r` and `w`. -/
  | turn (r : DsuSocket) (w : World)

namespace Registry

/-- The record as it is left elsewhere: its descriptors, their registrations and the stored event are as before. -/
def elsewhere (s : Registry) (r : DsuSocket) (w : World) : Registry :=
  let own := fun d : Int => d == s.sock.fd || d == s.sock.shadowfd
  { s with
    sock := { r with fd := s.sock.fd, shadowfd := s.sock.shadowfd, ev := s.sock.ev }
    world := { w with
      fdt := fun d => if own d then s.world.fdt d else w.fdt d
      regs := w.regs.filter (!own ·.fd) ++ s.world.regs.filter (own ·.fd) } }

/-- The record in the kernel wait of an `epoll_wait`. -/
def asked (K : Kernel) (s : Registry) (epfd : Int) : Registry :=
  let (sock, w) := dsuEpollShadowfd K epfd s.sock s.world
  { s with sock := sock, world := w }

/-- The record after the wait. -/
def restored (K : Kernel) (s : Registry) (epfd : Int) : Registry :=
  let (sock, w) := dsuEpollUnlock s.sock s.world
  let (sock, w) := dsuEpollOriginalfd K epfd sock w
  { s with sock := sock, world := w }

def step (K : Kernel) (s : Registry) : RegAct → Option Registry
  | .ctl epfd op event =>
    let (ok, sock, w) := epollCtlBound K epfd op event s.sock s.world
    some {
      sock := sock
      world := w
      program := if ok then Function.update s.program epfd (registered op event) else s.program }
  | .wait epfd r w => some (((s.asked K epfd).elsewhere r w).restored K epfd)
  | .turn r w => some (s.elsewhere r w)

/-- The registrations under `fd` where that is not the descriptor that the calls act on. -/
def under (s : Registry) (epfd : Int) : List EpollEvent :=
  if s.sock.fd = s.sock.shadowfd then [] else s.world.interest epfd s.sock.fd

/-- The registrations of the socket. -/
def entries (s : Registry) (epfd : Int) : List EpollEvent :=
  s.under epfd ++ s.world.interest epfd s.sock.shadowfd

/-- The descriptors of the record are open, and the instances have what the program has registered. -/
structure Agrees (s : Registry) : Prop where
  fd : s.world.isOpen s.sock.fd = true
  shadowfd : s.world.isOpen s.sock.shadowfd = true
  entries : ∀ epfd, s.entries epfd = (s.program epfd).toList

/-- A process that has bound its socket 3, and one that has inherited the descriptor 6 for it. -/
def bound (shadowfd : Int) : Registry where
  sock := { dsuSocketListInit with fd := 3, shadowfd := shadowfd, port := 8080, monitoring := true }
  world := (Proc.loaded.world.install 3 .user).install 6 .shadow
  program _ := none

theorem bound_agrees {shadowfd : Int} (h : shadowfd = 3 ∨ shadowfd = 6) : (bound shadowfd).Agrees := by
  rcases h with rfl | rfl
  · exact ⟨by decide, by decide, fun _ => rfl⟩
  · exact ⟨by decide, by decide, fun _ => rfl⟩

/-- The event that the program stores for the socket. -/
def readable : EpollEvent := { events := epollin, data := { fd := 3, hi := 0 } }

def writable : EpollEvent := { events := 4, data := { fd := 3, hi := 0 } }

end Registry

def registryMachine (K : Kernel) : Machine Registry RegAct where
  init := Registry.Agrees
  step := Registry.step K

end OpenDSU
