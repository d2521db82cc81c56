import OpenDSU.Kernel
import OpenDSU.Semaphore
import OpenDSU.Lib.Walk

/-! `core.c` and `communication.c` for one process: the wrappers of the socket calls, and what every event
call does first. -/

namespace OpenDSU

/-- `dsu_program_state` of a process of group `pgid`, the global `correction` of the handlers, and the kernel
    below. `exited`: `dsu_terminate` was called. `orphans` is not in the source: the connections of the
    records that `close` removed. -/
structure Proc where
  pgid : Int
  sockets : List DsuSocket
  binds : List DsuSocket
  live : Bool
  correction : Int
  world : World
  orphans : List (Int × File)
  exited : Bool

/-! ### Serving another version -/

/-- `dsu_write_fd`: nothing is sent when `sendfd` is not a socket. -/
def dsuWriteFd (K : Kernel) (w : World) (fd sendfd port : Int) : World :=
  if w.isOpen sendfd && K.getsockopt w sendfd then w.record (.sendmsg fd sendfd port) else w.tick

/-- The handlers, on a ready `comfd`: accept a connection of another version. -/
def acceptConn (K : Kernel) (r : DsuSocket) (w : World) : DsuSocket × World :=
  let (acc, w) := w.accept4 K r.comfd
  (if acc ≠ -1 then dsuSocketAddFds r acc .internal else r, w)

/-- The handlers, on a ready connection `c` of `comfds`: close it, or leave it to another process, or send
    the descriptors; whether it was closed. -/
def answerConn (K : Kernel) (c : Int) (r : DsuSocket) (w : World) : Bool × DsuSocket × World :=
  let (res, w) := w.recv K c
  match res with
  | .closed => (true, dsuSocketRemoveFds r c .internal, w.close K c)
  | .again => (false, r, w)
  | .error => (false, r, dsuWriteFd K (dsuWriteFd K w c r.shadowfd (-1)) c r.comfd (-1))
  | .request =>
    -- The result of `sem_wait` is not looked at here.
    let (_, w) := w.waitStatus K r.port
    let (st, r) := answerSection (w.status r.port) r
    let w := w.setStatus r.port st
    (false, r, dsuWriteFd K (dsuWriteFd K w c r.shadowfd r.port) c r.comfd r.port)

/-! ### Waiting on a bound socket -/

/-- Whether a wait may include a monitored socket: not now, freely, or under the descriptor lock. -/
inductive Access where
  | refused
  | free
  | locked
deriving DecidableEq, Repr

/-- The handlers, before a wait that asks for a monitored socket: only one process can monitor a blocking
    socket during a transfer. Only `select` hands the flag on from record to record. -/
def tryMonitor (K : Kernel) (r : DsuSocket) (transfer : Bool) (w : World) : Access × Bool × World :=
  let (ok, w) := w.waitStatus K r.port
  if ok then
    let transfer := transfer || decide (0 < (w.status r.port).transfer)
    if transfer && r.blocking then
      let (got, w) := w.trywait K r.fdSem
      (if got then .locked else .refused, transfer, w)
    else (.free, transfer, w)
  else (.refused, transfer, w)

/-- `dsu_unlock` and `dsu_epoll_unlock`, and the start of `dsu_post_select`. -/
def unlockFd (r : DsuSocket) (w : World) : DsuSocket × World :=
  if r.locked then ({ r with locked := false }, w.post r.fdSem) else (r, w)

/-! ### The start of every event call -/

def dsuMonitorFd (K : Kernel) (pgid : Int) (r : DsuSocket) (w : World) : DsuSocket × World :=
  let (ok, w) := w.waitStatus K r.port
  if ok then
    let st := w.status r.port
    let w := if r.quits st then w.close K r.comfd else w
    let (st, r) := monitorSection pgid st r
    (r, w.setStatus r.port st)
  else (r, w)

/-- The record keeps the process from terminating while the version of its port is `version`. -/
def DsuSocket.forbidsExit (r : DsuSocket) (version : Int) : Bool :=
  decide (version ≤ r.version) || r.monitoring || !r.comfds.isEmpty || !r.fds.isEmpty

/-- `dsu_termination_detection`: the first record that forbids it ends the walk. -/
def dsuTerminationDetection (K : Kernel) : List DsuSocket → World → Bool × World
  | [], w => (true, w)
  | r :: rest, w =>
    let (ok, w) := w.waitStatus K r.port
    -- In case of error do not terminate.
    let version := if ok then (w.status r.port).version else r.version
    if r.forbidsExit version then (false, w) else dsuTerminationDetection K rest w

/-- `dsu_terminate`; the process exits, and its group with the last worker. -/
def dsuTerminate (K : Kernel) (p : Proc) : Proc :=
  let (ok, w) := p.world.waitWorkers K
  { p with world := if ok then { w with workers := w.workers - 1 } else w, exited := true }

def dsuActivateProcess (K : Kernel) (w : World) : World :=
  let (ok, w) := w.waitWorkers K
  if ok then { w with workers := w.workers + 1 } else w

def dsuConfigureSocket (K : Kernel) (r : DsuSocket) (w : World) : DsuSocket × World :=
  ({ r with blocking := K.blocking w r.shadowfd }, w.tick)

/-- The first event call marks the worker active and configures the bound sockets. -/
def dsuGoLive (K : Kernel) (p : Proc) : Proc :=
  if p.live then p
  else
    let (binds, w) := walk (dsuConfigureSocket K) p.binds (dsuActivateProcess K p.world)
    { p with binds := binds, world := w, live := true }

/-- `dsu_initialize_event`, which `select` and `ppoll` repeat in their own bodies. -/
def dsuInitializeEvent (K : Kernel) (p : Proc) : Proc :=
  let p := dsuGoLive K p
  let (binds, w) := walk (dsuMonitorFd K p.pgid) p.binds p.world
  let (quit, w) := dsuTerminationDetection K binds w
  let p := { p with binds := binds, world := w }
  if quit then dsuTerminate K p else p

/-! ### Wrappers -/

def socket (K : Kernel) (p : Proc) : Int × Proc :=
  let (sockfd, w) := p.world.allot K .user
  let p := { p with world := w }
  if 0 < sockfd then
    (sockfd, { p with
      sockets := dsuSocketsAdd p.sockets { dsuSocketListInit with shadowfd := sockfd, fd := sockfd } })
  else (sockfd, p)

def dsuMonitorInit (K : Kernel) (s : DsuSocket) (w : World) : NameResult × World :=
  (if w.isOpen s.comfd then K.bindName w s.port else .failed, w.tick)

/-- `dsu_read_fd`: the values of `*recvfd` and `*port` afterwards. -/
def dsuReadFd (K : Kernel) (w : World) (fd recvfd port : Int) (kind : Kind) : Int × Int × World :=
  let (m, w) := w.recvmsg K fd kind
  match m with
  | .lost => (recvfd, port, w)
  | .malformed => (-1, port, w)
  | .bare port => (-1, port, w)
  | .full recvfd port => (recvfd, port, w)

/-- `dsu_inherit_fd`: the port of the second message, -1 where there was no exchange. -/
def dsuInheritFd (K : Kernel) (s : DsuSocket) (w : World) : Int × DsuSocket × World :=
  if w.isOpen s.comfd && K.connect w s.comfd then
    let (shadowfd, port, w) := dsuReadFd K w.tick s.comfd s.shadowfd 0 .shadow
    let (comfd, port, w) := dsuReadFd K w s.comfd 0 port .com
    (port, { s with shadowfd := shadowfd, comfd := comfd }, w.close K s.comfd)
  else (-1, s, w.tick)

/-- Move the record that `bind` has worked on to `binds`. -/
def Proc.transfer (p : Proc) (s : DsuSocket) (w : World) : Proc :=
  let (binds, sockets) := dsuSocketsTransferFd p.binds p.sockets s
  { p with binds := binds, sockets := sockets, world := w }

/-- Both branches of `bind` open the semaphores of the port and start to monitor. -/
def openSems (K : Kernel) (s : DsuSocket) (w : World) : DsuSocket × World :=
  ({ s with
      statusSem := K.semOpen w (pathnameStatusSem s.port)
      fdSem := K.semOpen w.tick (pathnameFdSem s.port)
      monitoring := true },
    w.tick.tick)

def enterFirst (K : Kernel) (pgid : Int) (s : DsuSocket) (w : World) : DsuSocket × World :=
  let (ok, w) := w.waitStatus K s.port
  if ok then ((bindFirstSection pgid s).2, w.setStatus s.port (bindFirstSection pgid s).1) else (s, w)

def enterInherit (K : Kernel) (pgid : Int) (s : DsuSocket) (w : World) : DsuSocket × World :=
  let (ok, w) := w.waitStatus K s.port
  if ok then (bindInheritSection pgid (w.status s.port) s, w) else (s, w)

/-- `bind` from `No other version running` on. -/
def bindFirst (K : Kernel) (p : Proc) (s : DsuSocket) (w : World) : Int × Proc :=
  let (s, w) := openSems K s w
  let (s, w) := enterFirst K p.pgid s w
  let p := p.transfer s w.tick
  (if K.bind w s.fd then 0 else -1, p)

/-- `bind` where `dsu_inherit_fd` has returned the port. -/
def bindInherit (K : Kernel) (p : Proc) (s : DsuSocket) (w : World) : Int × Proc :=
  let (s, w) := openSems K s w
  let (s, w) := enterInherit K p.pgid s w
  (0, p.transfer s w)

/-- `bind` to an address with the port `port`; shared memory is taken to be there, and the descriptor of `shm_open`,
    which stays open and which nothing uses, is left out. -/
def bind (K : Kernel) (p : Proc) (sockfd : Int) (port : Nat) : Int × Proc :=
  match dsuSocketsSearchFd p.sockets sockfd with
  | none => (-1, p)
  | some s =>
    let (comfd, w) := p.world.allot K .com
    let s := { s with port := port, comfd := comfd }
    let (named, w) := dsuMonitorInit K s w
    if named = .inUse then
      let (res, s, w) := dsuInheritFd K s w
      if 0 < res then bindInherit K p s w else bindFirst K p s w
    else bindFirst K p s w

/-- `accept` and `accept4`: a connection of a bound socket joins its record. -/
def accept (K : Kernel) (p : Proc) (sockfd : Int) : Int × Proc :=
  let known := dsuSocketsSearchFd p.binds sockfd
  let (sessionfd, w) := p.world.accept K (dsuShadowfd p.binds sockfd) (if known.isSome then .client else .user)
  if sessionfd = -1 then (-1, { p with world := w })
  else (sessionfd, { p with
    binds := dsuSocketsUpdate (·.fd == sockfd) (dsuSocketAddFds · sessionfd .nonInternal) p.binds
    world := w })

/-- `dsu_close` by the program. -/
def Proc.dsuClose (K : Kernel) (p : Proc) (fd : Int) : Proc := { p with world := p.world.close K fd }

/-- The open connections of a record. -/
def DsuSocket.connections (r : DsuSocket) (w : World) : List (Int × File) :=
  (r.fds ++ r.comfds).filterMap fun d =>
    (w.fdt d).bind fun file =>
      if file.kind = .client || file.kind = .internal then some (d, file) else none

def close (K : Kernel) (p : Proc) (sockfd : Int) : Proc :=
  if sockfd = 0 || sockfd = 1 || sockfd = 2 then p.dsuClose K sockfd
  else if (dsuSocketsSearchFd p.sockets sockfd).isSome then
    { p with sockets := dsuSocketsRemoveFd p.sockets sockfd }.dsuClose K sockfd
  else match dsuSocketsSearchFd p.binds sockfd with
    | some r =>
      { p with
        binds := dsuSocketsRemoveFd p.binds sockfd
        orphans := p.orphans ++ r.connections p.world }.dsuClose K sockfd
    | none =>
      if (dsuSocketsSearchFds p.binds sockfd .monitor).isSome then
        { p with
          binds := dsuSocketsUpdate (·.listens sockfd .monitor) ({ · with monitoring := false }) p.binds
        }.dsuClose K sockfd
      else if (dsuSocketsSearchFds p.binds sockfd .internal).isSome then
        { p with
          binds := dsuSocketsUpdate (·.listens sockfd .internal) (dsuSocketRemoveFds · sockfd .internal) p.binds
        }.dsuClose K sockfd
      else if (dsuSocketsSearchFds p.binds sockfd .nonInternal).isSome then
        { p with
          binds := dsuSocketsUpdate (·.listens sockfd .nonInternal) (dsuSocketRemoveFds · sockfd .nonInternal)
            p.binds
        }.dsuClose K sockfd
      else p.dsuClose K sockfd

end OpenDSU
