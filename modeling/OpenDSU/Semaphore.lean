import OpenDSU.Lib.Machine
import OpenDSU.Lib.SemTable
import OpenDSU.State

/-! The two semaphores of a port as `bind` opens them, and the processes that wait on them: `status_sem`
guards the sections on `status[]`, `fd_sem` is the descriptor lock that a section may try to take. -/

namespace OpenDSU

/-- `DSU_COMM`. -/
def dsuComm : String := "dsu_com"

/-- `sprintf(pathname_status_sem, "%s_%d", DSU_COMM, port)`. -/
def pathnameStatusSem (port : Nat) : String := dsuComm ++ "_" ++ toString port

/-- `sprintf(pathname_fd_sem, "%s_%d", DSU_COMM, port)`. -/
def pathnameFdSem (port : Nat) : String := dsuComm ++ "_" ++ toString port

/-- `bind`, no other version running: both semaphores are unlinked and made anew. -/
def bindFirstSems (port : Nat) (t : SemTable String) (s : DsuSocket) : SemTable String × DsuSocket :=
  let t := t.unlink (pathnameStatusSem port)
  let (status, t) := t.openExcl (pathnameStatusSem port)
  let t := t.setValue status 1
  let t := t.unlink (pathnameFdSem port)
  let (fd, t) := t.openExcl (pathnameFdSem port)
  let t := t.setValue fd 1
  (t, { s with statusSem := status, fdSem := fd })

/-- `bind`, descriptors inherited: both semaphores are opened by name. -/
def bindInheritSems (port : Nat) (t : SemTable String) (s : DsuSocket) : SemTable String × DsuSocket :=
  let (status, t) := t.openCreate (pathnameStatusSem port)
  let (fd, t) := t.openCreate (pathnameFdSem port)
  (t, { s with statusSem := status, fdSem := fd })

/-- A record of the port. `lineage` numbers the first version it descends from, by inheriting binds and
    forks; `inside`: its process is in a section under `status_sem`. -/
structure Holder where
  lineage : Nat
  sock : DsuSocket
  inside : Bool
deriving DecidableEq, Repr

/-- Set the `locked` of the record. -/
def Holder.setLocked (h : Holder) (locked : Bool) : Holder :=
  { h with sock := { h.sock with locked := locked } }

structure SemState where
  port : Nat
  table : SemTable String
  holders : List Holder
  lineages : Nat

/-- One step of one process; `i` is the place of a holder. -/
inductive SemAct where
  /-- A `bind` that finds no other version, or fails to inherit from it. -/
  | bindFirst
  /-- A `bind` that inherits the descriptors from holder `i`. -/
  | bindInherit (i : Nat)
  | fork (i : Nat)
  /-- `sem_wait(status_sem)`. -/
  | enter (i : Nat)
  /-- `sem_post(status_sem)`. -/
  | leave (i : Nat)
  /-- `sem_trywait(fd_sem)` in a section, successful or not. -/
  | tryLock (i : Nat)
  /-- `sem_post(fd_sem)` of a locked record after the wait. -/
  | unlock (i : Nat)
deriving DecidableEq, Repr

namespace SemState

def step (s : SemState) : SemAct → Option SemState
  | .bindFirst =>
    let (table, sock) := bindFirstSems s.port s.table { dsuSocketListInit with port := s.port }
    some { s with
      table := table
      holders := s.holders ++ [{ lineage := s.lineages, sock := sock, inside := false }]
      lineages := s.lineages + 1 }
  | .bindInherit i =>
    match s.holders[i]? with
    | some h =>
      let (table, sock) := bindInheritSems s.port s.table { dsuSocketListInit with port := s.port }
      some { s with
        table := table
        holders := s.holders ++ [{ lineage := h.lineage, sock := sock, inside := false }] }
    | none => none
  | .fork i =>
    match s.holders[i]? with
    | some h => if h.inside then none else some { s with holders := s.holders ++ [h] }
    | none => none
  | .enter i =>
    match s.holders[i]? with
    | some h =>
      if h.inside then none
      else (s.table.tryWait h.sock.statusSem).map fun table =>
        { s with table := table, holders := s.holders.set i { h with inside := true } }
    | none => none
  | .leave i =>
    match s.holders[i]? with
    | some h =>
      if h.inside then
        some { s with
          table := s.table.post h.sock.statusSem
          holders := s.holders.set i { h with inside := false } }
      else none
    | none => none
  | .tryLock i =>
    match s.holders[i]? with
    | some h =>
      if h.inside then
        match s.table.tryWait h.sock.fdSem with
        | some table =>
          some { s with table := table, holders := s.holders.set i (h.setLocked true) }
        | none => some s
      else none
    | none => none
  | .unlock i =>
    match s.holders[i]? with
    | some h =>
      if h.sock.locked then
        some { s with
          table := s.table.post h.sock.fdSem
          holders := s.holders.set i (h.setLocked false) }
      else none
    | none => none

/-- No process has bound the port; the table holds whatever earlier uses left. -/
def start (port : Nat) (table : SemTable String) : SemState where
  port := port
  table := table
  holders := []
  lineages := 0

end SemState

def semMachine : Machine SemState SemAct where
  init s := s.holders = []
  step := SemState.step

end OpenDSU
