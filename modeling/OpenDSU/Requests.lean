import OpenDSU.Port
import Mathlib.Logic.Function.Basic

/-! `dsu_inherit_fd` of one version and the handlers of the others with every system call a step of its own: the
connections on the abstract name of a port, the request and the descriptors in flight on each, and the processes that
serve them. A connection that was accepted before a `fork` is in `comfds` of several processes.

A descriptor stands for what it refers to. The number of a closed `comfd` may be given out again, and `dsu_write_fd` then
sends what has got it. No system call of an exchange fails, but that `dsu_recv` finds nothing (`EAGAIN`); no process dies,
and the program closes neither its bound socket nor a descriptor of the library. -/

namespace OpenDSU

/-- What a descriptor that is handed over refers to: socket `n` of a program that is bound to the port, or the socket
    that listens on the abstract name, or another socket that has got the number of a closed `comfd`. -/
inductive Endpoint where
  | listener (n : Nat)
  | name
  | other
deriving DecidableEq, Repr

/-- A message that process `pid` has sent with `dsu_write_fd`. -/
structure Parcel where
  pid : Nat
  fd : Endpoint
deriving DecidableEq, Repr

/-- How far a process is in `bind`: `connect` has returned; the request is sent; the connection is closed; its record is
    in `binds`. -/
inductive AskStage where
  | connected
  | waiting
  | closed
  | entered
deriving DecidableEq, Repr

/-- A process of group `pgid` in `dsu_inherit_fd` and its connection. `got`: what `dsu_read_fd` has delivered.
    `accepted`: it is no longer in the backlog. `request`: the request is sent and nobody has received it. `sent`: all
    messages on it so far. `taker` is not in the source: the process that received the request. -/
structure Conn where
  pgid : Int
  stage : AskStage
  got : List Endpoint
  accepted : Bool
  request : Bool
  sent : List Parcel
  taker : Option Nat
deriving DecidableEq, Repr

/-- A connection that `connect` has made. -/
def Conn.new (pgid : Int) : Conn where
  pgid := pgid
  stage := .connected
  got := []
  accepted := false
  request := false
  sent := []
  taker := none

/-- What a process is at in a handler: no request, or that of connection `c`, which it has received, has counted in
    `status[DSU_TRANSFER]`, has answered with `shadowfd`. -/
inductive Task where
  | idle
  | taken (c : Nat)
  | counted (c : Nat)
  | half (c : Nat)
deriving DecidableEq, Repr

/-- A process with a record of the port. `com` is what the number `comfd` refers to: nothing, once it is closed. -/
structure Host where
  pgid : Int
  sock : DsuSocket
  shadow : Endpoint
  com : Option Endpoint
  comfds : List Nat
  task : Task
deriving DecidableEq, Repr

/-- The processes and the connections by the number of the process; `pids` processes have been started. -/
structure RequestState where
  port : Nat
  status : Status
  hosts : Nat → Option Host
  conns : Nat → Option Conn
  pids : Nat

inductive RequestAct where
  /-- `dsu_monitor_init` of a new process is refused, and `connect` returns. -/
  | connect (pgid : Int)
  | send (c : Nat)
  /-- A handler accepts the connection, the oldest of the backlog. -/
  | accept (p c : Nat)
  /-- A handler calls `dsu_recv` on the connection. -/
  | recv (p c : Nat)
  /-- The section of the handler under `status_sem`. -/
  | count (p : Nat)
  | writeShadow (p : Nat)
  | writeCom (p : Nat)
  /-- `dsu_read_fd` returns with a message. -/
  | read (c : Nat)
  | hangUp (c : Nat)
  /-- The section of an inheriting version. -/
  | inherit (c : Nat)
  | fork (p : Nat)
  /-- `dsu_monitor_fd` in an event call. -/
  | monitor (p : Nat)
  | setLocked (p : Nat) (locked : Bool)
  /-- The program, or another record, opens a socket under the number of a closed `comfd`, or closes it again. -/
  | reuse (p : Nat) (opened : Bool)
  /-- `dsu_termination_detection` lets the process go. -/
  | exit (p : Nat)
deriving DecidableEq, Repr

namespace RequestState
open Function

def setHost (s : RequestState) (p : Nat) (h : Host) : RequestState := { s with hosts := update s.hosts p (some h) }

def setConn (s : RequestState) (c : Nat) (x : Conn) : RequestState := { s with conns := update s.conns c (some x) }

/-- No older connection is in the backlog. -/
def oldest (s : RequestState) (c : Nat) : Bool :=
  (List.range c).all fun c' => (s.conns c').all (·.accepted)

/-- A process listens on the abstract name. -/
def nameHeld (s : RequestState) : Bool :=
  (List.range s.pids).any fun p => (s.hosts p).any (·.com == some .name)

def step (s : RequestState) : RequestAct → Option RequestState
  | .connect pgid =>
    if s.nameHeld then
      some { s.setConn s.pids (.new pgid) with pids := s.pids + 1 }
    else none
  | .send c =>
    (s.conns c).bind fun x =>
      if x.stage = .connected then some (s.setConn c { x with stage := .waiting, request := true }) else none
  | .accept p c =>
    (s.hosts p).bind fun h => (s.conns c).bind fun x =>
      if h.task = .idle ∧ h.sock.monitoring ∧ h.com = some .name ∧ !x.accepted ∧ s.oldest c then
        some ((s.setHost p { h with comfds := h.comfds ++ [c] }).setConn c { x with accepted := true })
      else none
  | .recv p c =>
    (s.hosts p).bind fun h => (s.conns c).bind fun x =>
      if h.task = .idle ∧ c ∈ h.comfds then
        if x.request then
          some ((s.setHost p { h with task := .taken c }).setConn c { x with request := false, taker := some p })
        else if x.stage = .closed ∨ x.stage = .entered then
          some (s.setHost p { h with comfds := h.comfds.erase c })
        else none
      else none
  | .count p =>
    (s.hosts p).bind fun h =>
      match h.task with
      | .taken c =>
        let (status, sock) := answerSection s.status h.sock
        some { s.setHost p { h with sock := sock, task := .counted c } with status := status }
      | _ => none
  | .writeShadow p =>
    (s.hosts p).bind fun h =>
      match h.task with
      | .counted c => (s.conns c).map fun x =>
        (s.setHost p { h with task := .half c }).setConn c { x with sent := x.sent ++ [{ pid := p, fd := h.shadow }] }
      | _ => none
  | .writeCom p =>
    (s.hosts p).bind fun h =>
      match h.task with
      | .half c => (s.conns c).map fun x =>
        -- `dsu_write_fd` sends nothing where `comfd` is closed, else whatever has its number.
        match h.com with
        | some com =>
          (s.setHost p { h with task := .idle }).setConn c { x with sent := x.sent ++ [{ pid := p, fd := com }] }
        | none => s.setHost p { h with task := .idle }
      | _ => none
  | .read c =>
    (s.conns c).bind fun x =>
      if x.stage = .waiting ∧ x.got.length < 2 then
        (x.sent[x.got.length]?).map fun m => s.setConn c { x with got := x.got ++ [m.fd] }
      else none
  | .hangUp c =>
    (s.conns c).bind fun x =>
      if x.stage = .waiting ∧ x.got.length = 2 then some (s.setConn c { x with stage := .closed }) else none
  | .inherit c =>
    (s.conns c).bind fun x =>
      match x.stage, x.got with
      | .closed, [shadow, com] =>
        some ((s.setConn c { x with stage := .entered }).setHost c {
          pgid := x.pgid
          sock := bindInheritSection x.pgid s.status { dsuSocketListInit with port := s.port }
          shadow := shadow
          com := some com
          comfds := []
          task := .idle })
      | _, _ => none
  | .fork p =>
    (s.hosts p).bind fun h =>
      if h.task = .idle then some { s.setHost s.pids h with pids := s.pids + 1 } else none
  | .monitor p =>
    (s.hosts p).bind fun h =>
      if h.task = .idle then
        let (status, sock) := monitorSection h.pgid s.status h.sock
        some { s.setHost p { h with sock := sock, com := if h.sock.quits s.status then none else h.com } with
          status := status }
      else none
  | .setLocked p locked =>
    (s.hosts p).bind fun h =>
      if h.task = .idle then some (s.setHost p { h with sock := { h.sock with locked := locked } }) else none
  | .reuse p opened =>
    (s.hosts p).bind fun h =>
      if h.task = .idle ∧ !h.sock.monitoring ∧ h.com = (if opened then none else some .other) then
        some (s.setHost p { h with com := if opened then some .other else none })
      else none
  | .exit p =>
    (s.hosts p).bind fun h =>
      if h.task = .idle ∧ h.sock.version < s.status.version ∧ !h.sock.monitoring ∧ h.comfds = [] then
        some { s with hosts := update s.hosts p none }
      else none

/-- The first version has bound socket 0 to the port. -/
def start (port : Nat) (pgid : Int) : RequestState where
  port := port
  status := (bindFirstSection pgid dsuSocketListInit).1
  hosts := fun p => if p = 0 then some {
    pgid := pgid
    sock := (bindFirstSection pgid { dsuSocketListInit with port := port }).2
    shadow := .listener 0
    com := some .name
    comfds := []
    task := .idle } else none
  conns := fun _ => none
  pids := 1

end RequestState

/-- The processes of a port greater than 0, which `dsu_inherit_fd` never refuses. -/
def requestMachine : Machine RequestState RequestAct where
  init s := ∃ port pgid, 0 < port ∧ s = .start port pgid
  step := RequestState.step

/-- The step sends nothing that has only got the number of a closed `comfd`. -/
def RequestState.genuine (s : RequestState) : RequestAct → Bool
  | .writeCom p => (s.hosts p).all (·.com != some .other)
  | .connect _ | .send _ | .accept .. | .recv .. | .count _ | .writeShadow _ | .read _ | .hangUp _ | .inherit _ | .fork _
  | .monitor _ | .setLocked .. | .reuse .. | .exit _ => true

/-- The processes of a port where what has got the number of a closed `comfd` is never handed over in its place. -/
def genuineMachine : Machine RequestState RequestAct := requestMachine.guard RequestState.genuine

end OpenDSU
