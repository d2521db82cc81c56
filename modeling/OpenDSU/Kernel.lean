import OpenDSU.Status

/-! The system calls below the wrappers, as one process sees them.

A `World` is what the kernel keeps for the process, with what other processes share with it; a `Kernel`
answers the calls, in any way it likes as a function of the whole world. `clock` moves with every call, so
that no two calls are bound to the same answer. -/

namespace OpenDSU

/-- What a descriptor was opened for: by the program for itself (`user`), from a bound socket (`client`), or
    by the library: a `comfd`, an inherited `shadowfd`, a connection of another version. -/
inductive Kind where
  | user
  | client
  | com
  | shadow
  | internal
deriving DecidableEq, Repr

structure File where
  id : Nat
  kind : Kind
deriving DecidableEq, Repr

/-- An entry of the interest list of the epoll instance `epfd`. `internal`: the library added it for a
    `comfd` or a member of `comfds`. -/
structure Reg where
  epfd : Int
  fd : Int
  file : Nat
  ev : EpollEvent
  internal : Bool
deriving DecidableEq, Repr

inductive EpollOp where
  | add
  | mod
  | del
deriving DecidableEq, Repr

/-- What `dsu_recv` finds on an internal connection. -/
inductive Recv where
  | closed
  /-- `EAGAIN` or `EWOULDBLOCK`. -/
  | again
  | error
  | request
deriving DecidableEq, Repr

/-- What `dsu_recvmsg` delivers to `dsu_read_fd`: nothing, control data that is no descriptor, a message
    without a descriptor, or one with a descriptor, received under a number. -/
inductive Msg where
  | lost
  | malformed
  | bare (port : Int)
  | full (fd : Int) (port : Int)
deriving DecidableEq, Repr

/-- The end of `dsu_monitor_init`. -/
inductive NameResult where
  | claimed
  | inUse
  | failed
deriving DecidableEq, Repr

inductive Sys where
  | accept4 (fd : Int) (res : Int)
  | recv (fd : Int) (res : Recv)
  | sendmsg (fd : Int) (sendfd : Int) (port : Int)
  | close (fd : Int)
  /-- A `sem_trywait` that succeeded. -/
  | trywait (sem : Nat)
  | post (sem : Nat)
deriving DecidableEq, Repr

/-- `held`: the `fd_sem` objects the process holds. `status` and `workers` are the shared memory as last
    seen. -/
structure World where
  fdt : Int → Option File
  files : Nat
  regs : List Reg
  status : Nat → Status
  workers : Int
  held : List Nat
  log : List Sys
  clock : Nat

/-- The readiness that a wait of `select` reports. -/
structure Ready where
  read : Int → Bool
  write : Int → Bool
  except : Int → Bool

structure Kernel where
  /-- The number for a new descriptor, if there is one. -/
  number : World → Option Int
  accept : World → Int → Bool
  recv : World → Int → Recv
  recvmsg : World → Int → Msg
  /-- `connect` and the `send` of the request. -/
  connect : World → Int → Bool
  getsockopt : World → Int → Bool
  bind : World → Int → Bool
  bindName : World → Nat → NameResult
  blocking : World → Int → Bool
  /-- Another descriptor of the file is open somewhere. -/
  shared : World → Nat → Bool
  semOpen : World → String → Nat
  semWait : World → Bool
  semTrywait : World → Nat → Bool
  status : World → Nat → Status
  workers : World → Int
  /-- The waits see the timeout they are given, if one. -/
  select : World → Option Nat → Option Ready
  /-- `revents` by index. -/
  ppoll : World → Option Nat → Option (Nat → Nat)
  epollCtl : World → Bool
  epollWait : World → Int → Option Nat → Option (List (Reg × Nat))

/-- A kernel on which nothing fails, nothing becomes ready and no other process runs. -/
def soloKernel : Kernel where
  number w := some w.files
  accept _ _ := true
  recv _ _ := .request
  recvmsg _ _ := .lost
  connect _ _ := true
  getsockopt _ _ := true
  bind _ _ := true
  bindName _ _ := .claimed
  blocking _ _ := false
  shared _ _ := false
  semOpen w _ := w.clock
  semWait _ := true
  semTrywait _ _ := true
  status w port := w.status port
  workers w := w.workers
  select _ _ := some { read := fun _ => false, write := fun _ => false, except := fun _ => false }
  ppoll _ _ := some fun _ => 0
  epollCtl _ := true
  epollWait _ _ _ := some []

namespace World

def tick (w : World) : World := { w with clock := w.clock + 1 }

def record (w : World) (e : Sys) : World := { w with log := w.log ++ [e], clock := w.clock + 1 }

def isOpen (w : World) (fd : Int) : Bool := (w.fdt fd).isSome

/-- A new descriptor under a number that is not open. -/
def install (w : World) (n : Int) (kind : Kind) : World :=
  { w with
    fdt := fun fd => if fd = n then some { id := w.files, kind := kind } else w.fdt fd
    files := w.files + 1 }

/-- The kernel may fail, and never hands out a number that is open. -/
def allot (K : Kernel) (w : World) (kind : Kind) : Int × World :=
  match K.number w with
  | some n => if 0 ≤ n && !w.isOpen n then (n, (w.install n kind).tick) else (-1, w.tick)
  | none => (-1, w.tick)

/-- `dsu_accept` and `dsu_accept4`. -/
def accept (K : Kernel) (w : World) (fd : Int) (kind : Kind) : Int × World :=
  if w.isOpen fd && K.accept w fd then w.allot K kind else (-1, w.tick)

/-- `dsu_close`. A registration with an epoll instance goes with the last descriptor of its file. -/
def close (K : Kernel) (w : World) (fd : Int) : World :=
  match w.fdt fd with
  | none => w.record (.close fd)
  | some file =>
    { w with
      fdt := fun d => if d = fd then none else w.fdt d
      regs := if K.shared w file.id then w.regs else w.regs.filter (·.file ≠ file.id)
      log := w.log ++ [.close fd]
      clock := w.clock + 1 }

/-- `dsu_recv` on an internal connection. -/
def recv (K : Kernel) (w : World) (fd : Int) : Recv × World :=
  let res := if w.isOpen fd then K.recv w fd else .error
  (res, w.record (.recv fd res))

/-- `dsu_accept4` in the handlers, with `SOCK_NONBLOCK`. -/
def accept4 (K : Kernel) (w : World) (fd : Int) : Int × World :=
  let (acc, w) := w.accept K fd .internal
  (acc, w.record (.accept4 fd acc))

/-- `dsu_recvmsg`; a descriptor that comes with the message is opened under a number that was free. -/
def recvmsg (K : Kernel) (w : World) (fd : Int) (kind : Kind) : Msg × World :=
  if !w.isOpen fd then (.lost, w.tick)
  else match K.recvmsg w fd with
    | .full n port =>
      if 0 ≤ n && !w.isOpen n then (.full n port, (w.install n kind).tick) else (.lost, w.tick)
    | m => (m, w.tick)

/-- `sem_wait(status_sem)`: whether it succeeded. The shared memory of the port is read after it. -/
def waitStatus (K : Kernel) (w : World) (port : Nat) : Bool × World :=
  (K.semWait w,
    { w with
      status := fun p => if p = port then K.status w port else w.status p
      clock := w.clock + 1 })

/-- `sem_wait(dsu_program_state.lock)`, like `waitStatus` for the number of workers. -/
def waitWorkers (K : Kernel) (w : World) : Bool × World :=
  (K.semWait w, { w.tick with workers := K.workers w })

def setStatus (w : World) (port : Nat) (st : Status) : World :=
  { w with status := fun p => if p = port then st else w.status p }

/-- `sem_trywait(fd_sem)`. The value of the semaphore is at most 1: who holds it cannot take it again. -/
def trywait (K : Kernel) (w : World) (sem : Nat) : Bool × World :=
  if K.semTrywait w sem && !w.held.contains sem then
    (true, { w.record (.trywait sem) with held := sem :: w.held })
  else (false, w.tick)

/-- `sem_post(fd_sem)`. -/
def post (w : World) (sem : Nat) : World := { w.record (.post sem) with held := w.held.erase sem }

/-- `dsu_epoll_ctl`: refused where the descriptor is closed, an entry exists already, or none exists. -/
def epollCtl (K : Kernel) (w : World) (epfd : Int) (op : EpollOp) (fd : Int) (ev : EpollEvent)
    (internal : Bool) : Bool × World :=
  match w.fdt fd with
  | none => (false, w.tick)
  | some file =>
    let known := w.regs.any fun g => g.epfd == epfd && g.fd == fd && g.file == file.id
    let here := fun g : Reg => g.epfd == epfd && g.fd == fd && g.file == file.id
    if !K.epollCtl w then (false, w.tick)
    else match op with
      | .add =>
        if known then (false, w.tick)
        else (true, { w.tick with
          regs := w.regs ++ [{ epfd := epfd, fd := fd, file := file.id, ev := ev, internal := internal }] })
      | .mod =>
        if known then
          (true, { w.tick with regs := w.regs.map fun g => if here g then { g with ev := ev } else g })
        else (false, w.tick)
      | .del =>
        if known then (true, { w.tick with regs := w.regs.filter fun g => !here g })
        else (false, w.tick)

end World

end OpenDSU
