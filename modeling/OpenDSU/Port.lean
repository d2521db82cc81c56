import OpenDSU.Lib.Machine
import OpenDSU.Status

/-! The processes that share one port, of any versions and groups, and the steps they take in any order:
each critical section under `status_sem` is one step, and so is each move of the hand-over between them.

The kernel binds the abstract name of the port to the first `comfd` that asks and refuses every other
until the last descriptor of that socket is closed. -/

namespace OpenDSU

/-- A record of the port in `binds` of the process `pid` of group `pgid`. `comOpen`: its `comfd` is an open
    descriptor of the socket that listens on the port's abstract name. -/
structure Rec where
  pid : Nat
  pgid : Int
  sock : DsuSocket
  comOpen : Bool
deriving DecidableEq, Repr

/-- How far a process is in `bind`: it got the abstract name, or it was refused and sent its request, or
    it received both descriptors. -/
inductive Phase where
  | named
  | asking
  | answered
deriving DecidableEq, Repr

structure Binder where
  pid : Nat
  pgid : Int
  phase : Phase
deriving DecidableEq, Repr

/-- `leaked` counts the descriptors of the listening `comfd` whose record its process has removed. -/
structure PortState where
  port : Nat
  status : Status
  recs : List Rec
  binders : List Binder
  leaked : Nat
deriving DecidableEq, Repr

namespace PortState

/-- A port on fresh shared memory, which `ftruncate` fills with zeros. -/
def unused (port : Nat) : PortState where
  port := port
  status := { pgid := 0, version := 0, transfer := 0 }
  recs := []
  binders := []
  leaked := 0

/-- Some process holds the socket that is bound to the abstract name. -/
def nameHeld (s : PortState) : Bool :=
  s.recs.any (·.comOpen) || s.binders.any (·.phase != .asking) || decide (0 < s.leaked)

/-- The record that `socket` left in `sockets`, with the port that `bind` stores. -/
def fresh (s : PortState) : DsuSocket := { dsuSocketListInit with port := s.port }

/-- Binder `k` runs the section of the first version and moves its record to `binds`. -/
def enterFirst (s : PortState) (k : Nat) (b : Binder) (comOpen : Bool) : PortState :=
  let (status, sock) := bindFirstSection b.pgid s.fresh
  { s with
    status := status
    recs := s.recs ++ [{ pid := b.pid, pgid := b.pgid, sock := sock, comOpen := comOpen }]
    binders := s.binders.eraseIdx k }

/-- Binder `k` runs the section of an inheriting version and moves its record to `binds`. -/
def enterInherit (s : PortState) (k : Nat) (b : Binder) : PortState :=
  let sock := bindInheritSection b.pgid s.status s.fresh
  { s with
    recs := s.recs ++ [{ pid := b.pid, pgid := b.pgid, sock := sock, comOpen := true }]
    binders := s.binders.eraseIdx k }

/-- The copies a forked process gets of the records of its parent. -/
def copies (s : PortState) (pid child : Nat) : List Rec :=
  (s.recs.filter (·.pid == pid)).map fun r => { r with pid := child }

end PortState

/-- One step of one process. `i` is the place of a record, `k` that of a process in `bind`. -/
inductive PortAct where
  /-- `dsu_monitor_init` succeeds. -/
  | claimName (pid : Nat) (pgid : Int)
  /-- `bind` of the process that got the name enters the section of the first version. -/
  | bindFirst (k : Nat)
  /-- `dsu_monitor_init` is refused, `dsu_inherit_fd` connects and sends its request. -/
  | request (pid : Nat) (pgid : Int)
  /-- A process receives the request of binder `k`, enters its section and sends `shadowfd` and `comfd`. Who no longer
      monitors sends what has got the number of its closed `comfd`, if anything has: that is left out. -/
  | serve (i k : Nat)
  /-- `dsu_inherit_fd` returns the port; `bind` goes on with the section of an inheriting version. -/
  | bindAnswered (k : Nat)
  /-- `dsu_inherit_fd` fails; `bind` falls through to the section of the first version. -/
  | bindFallback (k : Nat)
  | fork (pid child : Nat)
  /-- `dsu_monitor_fd` in an event call. -/
  | monitor (i : Nat)
  /-- The wait of an event call takes or gives back the descriptor lock. -/
  | setLocked (i : Nat) (locked : Bool)
  /-- The program closes the bound socket: the record goes, its `comfd` stays open. -/
  | close (i : Nat)
  /-- The program closes the number of the monitored `comfd`. -/
  | closeCom (i : Nat)
deriving DecidableEq, Repr

namespace PortState

def step (s : PortState) : PortAct → Option PortState
  | .claimName pid pgid =>
    if s.nameHeld then none
    else some { s with binders := s.binders ++ [{ pid := pid, pgid := pgid, phase := .named }] }
  | .bindFirst k =>
    match s.binders[k]? with
    | some b => if b.phase = .named then some (s.enterFirst k b true) else none
    | none => none
  | .request pid pgid =>
    if s.nameHeld then
      some { s with binders := s.binders ++ [{ pid := pid, pgid := pgid, phase := .asking }] }
    else none
  | .serve i k =>
    match s.recs[i]?, s.binders[k]? with
    | some r, some b =>
      if b.phase = .asking then
        let (status, sock) := answerSection s.status r.sock
        some { s with
          status := status
          recs := s.recs.set i { r with sock := sock }
          -- Without an open `comfd` the second message is never sent, and the requester waits on.
          binders := if r.comOpen then s.binders.set k { b with phase := .answered } else s.binders }
      else none
    | _, _ => none
  | .bindAnswered k =>
    match s.binders[k]? with
    | some b =>
      if b.phase = .answered then
        -- `dsu_inherit_fd` returns the port, and `bind` asks whether it is greater than 0.
        if 0 < s.port then some (s.enterInherit k b) else some (s.enterFirst k b true)
      else none
    | none => none
  | .bindFallback k =>
    match s.binders[k]? with
    | some b => if b.phase = .asking then some (s.enterFirst k b false) else none
    | none => none
  | .fork pid child =>
    if s.recs.any (·.pid == child) || s.binders.any (fun b => b.pid == child || b.pid == pid) then none
    else some { s with recs := s.recs ++ s.copies pid child }
  | .monitor i =>
    match s.recs[i]? with
    | some r =>
      let (status, sock) := monitorSection r.pgid s.status r.sock
      some { s with
        status := status
        recs := s.recs.set i { r with sock := sock, comOpen := r.comOpen && !r.sock.quits s.status } }
    | none => none
  | .setLocked i locked =>
    match s.recs[i]? with
    | some r => some { s with recs := s.recs.set i { r with sock := { r.sock with locked := locked } } }
    | none => none
  | .close i =>
    match s.recs[i]? with
    | some r => some { s with
        recs := s.recs.eraseIdx i
        leaked := s.leaked + if r.comOpen then 1 else 0 }
    | none => none
  | .closeCom i =>
    match s.recs[i]? with
    | some r =>
      if r.sock.monitoring then
        some { s with
          recs := s.recs.set i { r with sock := { r.sock with monitoring := false }, comOpen := false } }
      else none
    | none => none

end PortState

/-- The port from the moment no process has bound it; `status[]` holds whatever an earlier use left. -/
def portMachine : Machine PortState PortAct where
  init s := s.recs = [] ∧ s.binders = [] ∧ s.leaked = 0
  step := PortState.step

end OpenDSU
