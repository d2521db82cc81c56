import OpenDSU.Lib.Machine
import OpenDSU.Select
import OpenDSU.Poll
import OpenDSU.Epoll

/-! One process and the calls its program makes, in any order, over a kernel that answers in any way. -/

namespace OpenDSU

inductive Call where
  | socket
  | bind (sockfd : Int) (port : Nat)
  /-- `accept` or `accept4`. -/
  | accept (sockfd : Int)
  | close (sockfd : Int)
  | epollCtl (epfd : Int) (op : EpollOp) (fd : Int) (event : EpollEvent)
  /-- A `select` that returns after at most `rounds` kernel waits. -/
  | select (nfds : Int) (sets : FdSets) (timeout : Option Nat) (rounds : Nat)
  /-- `ppoll` or `poll`. -/
  | ppoll (fds : List PollFd) (timeout : Option Nat)
  | epollWait (epfd : Int) (events : Nat → Event) (maxevents : Nat) (timeout : Option Nat)

/-- The process after a call; none where the call does not return control to it and it has not exited. -/
def Proc.step (K : Kernel) (p : Proc) (call : Call) : Option Proc :=
  if p.exited then none
  else match call with
    | .socket => some (socket K p).2
    | .bind sockfd port => some (bind K p sockfd port).2
    | .accept sockfd => some (accept K p sockfd).2
    | .close sockfd => some (close K p sockfd)
    | .epollCtl epfd op fd event => some (epollCtl K p epfd op fd event).2
    | .select nfds sets timeout rounds => (select K nfds sets timeout rounds p).map (·.1)
    | .ppoll fds timeout =>
      match ppoll K fds timeout p with
      | (_, .overrun) => none
      | (p, _) => some p
    | .epollWait epfd events maxevents timeout => some (epollWait K epfd events maxevents timeout p).1

/-- A process that has just been loaded: the descriptors it was started with are its own. -/
structure Proc.Started (p : Proc) : Prop where
  sockets : p.sockets = []
  binds : p.binds = []
  orphans : p.orphans = []
  live : p.live = false
  correction : p.correction = 0
  exited : p.exited = false
  user : ∀ fd file, p.world.fdt fd = some file → file.kind = .user ∧ file.id < p.world.files
  regs : p.world.regs = []
  held : p.world.held = []

/-- A process of group 1 with descriptors 0, 1 and 2. -/
def Proc.loaded : Proc where
  pgid := 1
  sockets := []
  binds := []
  live := false
  correction := 0
  world := {
    fdt := fun fd => if 0 ≤ fd ∧ fd ≤ 2 then some { id := fd.toNat, kind := .user } else none
    files := 3
    regs := []
    status := fun _ => { pgid := 0, version := 0, transfer := 0 }
    workers := 0
    held := []
    log := []
    clock := 0 }
  orphans := []
  exited := false

theorem Proc.started_loaded : Proc.loaded.Started where
  sockets := rfl
  binds := rfl
  orphans := rfl
  live := rfl
  correction := rfl
  exited := rfl
  user fd file h := by
    obtain ⟨hfd, h⟩ := Option.ite_none_right_eq_some.mp h
    cases h
    refine ⟨rfl, ?_⟩
    change fd.toNat < 3
    omega
  regs := rfl
  held := rfl

def procMachine (K : Kernel) : Machine Proc Call where
  init := Proc.Started
  step := Proc.step K

end OpenDSU
