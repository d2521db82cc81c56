import OpenDSU.Core
import OpenDSU.Lib.Machine

/-! The processes that wait on the listening socket of one port, of any versions, in any order of their steps.

`status_sem` and `fd_sem` are one object each for all of them, so that a section under `status_sem` is one
step and `fd_sem` is a value. Other processes run between the section in which a handler checks `status[]` and
its kernel wait, and between the wait and the `accept` of the program. -/

namespace OpenDSU

/-- The section of the handlers before a wait that asks for a monitored socket: whether the wait may include
    it, and the value of `fd_sem`. Only `select` hands a flag on from an earlier record. -/
def admitSection (st : Status) (handed : Bool) (s : DsuSocket) (fdSem : Nat) : Access × Nat :=
  if (handed || decide (0 < st.transfer)) && s.blocking then
    if 0 < fdSem then (.locked, fdSem - 1) else (.refused, fdSem)
  else (.free, fdSem)

/-- The section of one process, for a value of `fd_sem` that `sem_trywait` finds. -/
theorem tryMonitor_admit (K : Kernel) (r : DsuSocket) (transfer : Bool) (w : World) :
    (tryMonitor K r transfer w).1 =
      if K.semWait w then
        (admitSection ((w.waitStatus K r.port).2.status r.port) transfer r
          (if ((w.waitStatus K r.port).2.trywait K r.fdSem).1 then 1 else 0)).1
      else .refused := by
  have hwait : w.waitStatus K r.port = (K.semWait w, (w.waitStatus K r.port).2) := rfl
  unfold tryMonitor admitSection
  rw [hwait]
  generalize (w.waitStatus K r.port).2 = w'
  simp only
  cases K.semWait w
  · rfl
  · simp only [if_true]
    split
    · cases (w'.trywait K r.fdSem).1 <;> rfl
    · rfl

/-- Where a process is: in its program, or in an event call. -/
inductive Stage where
  | program
  /-- Past `dsu_initialize_event`. -/
  | begun
  /-- Past the section that decides about the wait. -/
  | checked (access : Access)
  /-- In the kernel wait. -/
  | waiting (access : Access)
  /-- Past the kernel wait, in the handlers. -/
  | serving
deriving DecidableEq, Repr

/-- A process with a record of the port. `live`: it has made an event call. `report`: the pending connection
    because of which its last wait reported the socket, until it accepts or begins another event call. -/
structure Waiter where
  pgid : Int
  sock : DsuSocket
  live : Bool
  stage : Stage
  report : Option Nat
deriving DecidableEq, Repr

/-- The process after the section that decides about its wait. -/
def Waiter.decided (r : Waiter) (access : Access) : Waiter :=
  match access with
  | .locked => { r with sock := { r.sock with locked := true }, stage := .checked .locked }
  | access => { r with stage := .checked access }

/-- What the processes share. `blocking`: the listening socket is blocking. `requesters`: the groups of the
    processes in `bind` that have received both descriptors. `queue`: the pending connections. -/
structure Shared where
  port : Nat
  status : Status
  fdSem : Nat
  blocking : Bool
  requesters : List Int
  queue : List Nat
  arrivals : Nat
deriving DecidableEq, Repr

/-- A step of one process. -/
inductive Move where
  /-- `dsu_initialize_event`; `ok`: `sem_wait` of `dsu_monitor_fd` succeeds. -/
  | enter (ok : Bool)
  /-- The section before the wait; `asks`: the program waits for the socket. -/
  | check (asks handed ok : Bool)
  | wait
  /-- The kernel wait ends; `ready`: it reports the socket. -/
  | wake (ready : Bool)
  /-- A handler answers the request of a process of the group. -/
  | answer (pgid : Int)
  /-- The event call returns and gives the descriptor lock back. -/
  | finish
  /-- The event call returns at once: an error of `select`, or a `ppoll` without a ready descriptor. -/
  | giveUp
  | accept
deriving DecidableEq, Repr

namespace Shared

/-- A step of the process `r`; none where it is elsewhere, or `accept` blocks. -/
def move (s : Shared) (r : Waiter) : Move → Option (Shared × Waiter)
  | .enter ok =>
    if r.stage = .program then
      let sock := if r.live then r.sock else { r.sock with blocking := s.blocking }
      let (status, sock) := if ok then monitorSection r.pgid s.status sock else (s.status, sock)
      some ({ s with status := status }, { r with sock := sock, live := true, stage := .begun, report := none })
    else none
  | .check asks handed ok =>
    if r.stage = .begun then
      let (access, fdSem) :=
        if asks && r.sock.monitoring && ok then admitSection s.status handed r.sock s.fdSem
        else (.refused, s.fdSem)
      some ({ s with fdSem := fdSem }, r.decided access)
    else none
  | .wait =>
    match r.stage with
    | .checked access => some (s, { r with stage := .waiting access })
    | _ => none
  | .wake ready =>
    match r.stage with
    | .waiting access =>
      if ready then
        if access ≠ .refused ∧ s.queue ≠ [] then
          some (s, { r with stage := .serving, report := s.queue.head? })
        else none
      else some (s, { r with stage := .serving })
    | _ => none
  | .answer pgid =>
    if r.stage = .serving then
      let (status, sock) := answerSection s.status r.sock
      some ({ s with status := status, requesters := s.requesters ++ [pgid] }, { r with sock := sock })
    else none
  | .finish =>
    if r.stage = .serving then
      some (if r.sock.locked then { s with fdSem := s.fdSem + 1 } else s,
        { r with sock := { r.sock with locked := false }, stage := .program })
    else none
  | .giveUp =>
    if r.stage = .serving ∧ r.report = none then some (s, { r with stage := .program }) else none
  | .accept =>
    if r.stage = .program ∧ s.queue ≠ [] then
      some ({ s with queue := s.queue.tail }, { r with report := none })
    else none

end Shared

structure WaitState where
  shared : Shared
  waiters : List Waiter
deriving DecidableEq, Repr

inductive WaitAct where
  | move (i : Nat) (m : Move)
  /-- A client connects. -/
  | arrive
  /-- The requester `k` goes on with its `bind`; `live`: it has made an event call before. -/
  | inherit (k : Nat) (live : Bool)
  | fork (i : Nat)
  /-- The process exits, or closes the bound socket. -/
  | leave (i : Nat)
deriving DecidableEq, Repr

namespace WaitState

def step (s : WaitState) : WaitAct → Option WaitState
  | .move i m =>
    s.waiters[i]?.bind fun r =>
      (s.shared.move r m).map fun q => { shared := q.1, waiters := s.waiters.set i q.2 }
  | .arrive =>
    some { s with shared := { s.shared with
      queue := s.shared.queue ++ [s.shared.arrivals]
      arrivals := s.shared.arrivals + 1 } }
  | .inherit k live =>
    s.shared.requesters[k]?.map fun pgid =>
      { shared := { s.shared with requesters := s.shared.requesters.eraseIdx k }
        waiters := s.waiters ++ [{
          pgid := pgid
          sock := bindInheritSection pgid s.shared.status { dsuSocketListInit with port := s.shared.port }
          live := live
          stage := .program
          report := none }] }
  | .fork i =>
    s.waiters[i]?.bind fun r =>
      if r.stage = .program then some { s with waiters := s.waiters ++ [{ r with report := none }] } else none
  | .leave i => s.waiters[i]?.map fun _ => { s with waiters := s.waiters.eraseIdx i }

/-- A process of the group has bound the port as the first version, its semaphores are new. -/
def start (port : Nat) (pgid : Int) (blocking live : Bool) : WaitState where
  shared := {
    port := port
    status := (bindFirstSection pgid dsuSocketListInit).1
    fdSem := 1
    blocking := blocking
    requesters := []
    queue := []
    arrivals := 0 }
  waiters := [{
    pgid := pgid
    sock := (bindFirstSection pgid { dsuSocketListInit with port := port }).2
    live := live
    stage := .program
    report := none }]

end WaitState

def waitMachine : Machine WaitState WaitAct where
  init s := ∃ port pgid blocking live, s = .start port pgid blocking live
  step := WaitState.step

end OpenDSU
