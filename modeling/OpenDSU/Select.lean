import OpenDSU.Core
import Mathlib.Data.Finset.Card
import Mathlib.Data.Int.Order.Basic

/-! `event_handlers/select.c`. A null set is `none`. -/

namespace OpenDSU

abbrev FdSet := Finset Int

structure FdSets where
  read : Option FdSet
  write : Option FdSet
  except : Option FdSet

def fdIsset (fd : Int) (set : Option FdSet) : Bool :=
  match set with
  | some s => decide (fd ∈ s)
  | none => false

def fdClr (fd : Int) (set : Option FdSet) : Option FdSet := set.map (·.erase fd)

def fdSet (fd : Int) (set : Option FdSet) : Option FdSet := set.map (insert fd)

def FdSets.size (s : FdSets) : Nat :=
  (s.read.getD ∅).card + (s.write.getD ∅).card + (s.except.getD ∅).card

/-- What the passes of `select` over the records change: the kernel's side, the read set, and the globals
    `correction`, `transfer` and `max_fds`. -/
structure SelectPass where
  world : World
  readfds : Option FdSet
  correction : Int
  transfer : Bool
  maxFds : Int

/-- The system call: an error where a descriptor below `n` is not open or the kernel refuses, else the
    descriptors below `n` that it finds ready. -/
def World.select (K : Kernel) (w : World) (n : Int) (s : FdSets) (timeout : Option Nat) : Option FdSets × World :=
  let open? := fun (set : Option FdSet) => ∀ fd ∈ set.getD ∅, fd < n → w.isOpen fd = true
  (if open? s.read ∧ open? s.write ∧ open? s.except then
    (K.select w timeout).map fun ready =>
      { read := s.read.map (·.filter fun fd => fd < n ∧ ready.read fd = true)
        write := s.write.map (·.filter fun fd => fd < n ∧ ready.write fd = true)
        except := s.except.map (·.filter fun fd => fd < n ∧ ready.except fd = true) }
  else none, w.tick)

namespace SelectPass

/-- Put a descriptor into the read set and raise `max_fds` over it. -/
def listen (s : SelectPass) (fd : Int) : SelectPass :=
  { s with readfds := fdSet fd s.readfds, maxFds := if s.maxFds < fd + 1 then fd + 1 else s.maxFds }

/-- Take an internal descriptor out of the read set, after it was served. -/
def served (s : SelectPass) (fd : Int) (w : World) : SelectPass :=
  { s with world := w, readfds := fdClr fd s.readfds, correction := s.correction + 1 }

end SelectPass

def dsuSniffConn (r : DsuSocket) (s : SelectPass) : DsuSocket × SelectPass :=
  if s.readfds.isNone then (r, s)
  else
    let s := if r.monitoring then s.listen r.comfd else s
    (r, r.comfds.foldl SelectPass.listen s)

/-- The loop of `dsu_handle_conn` over `comfds`. It goes to the next node before a closed one is removed, so
    it visits the list as it was at the start. -/
def dsuHandleComfds (K : Kernel) : List Int → DsuSocket → SelectPass → DsuSocket × SelectPass
  | [], r, s => (r, s)
  | c :: cs, r, s =>
    if fdIsset c s.readfds then
      let (_, r, w) := answerConn K c r s.world
      dsuHandleComfds K cs r (s.served c w)
    else dsuHandleComfds K cs r s

def dsuHandleConn (K : Kernel) (r : DsuSocket) (s : SelectPass) : DsuSocket × SelectPass :=
  if fdIsset r.comfd s.readfds then
    let (r', w) := acceptConn K r s.world
    dsuHandleComfds K r'.comfds r' (s.served r.comfd w)
  else dsuHandleComfds K r.comfds r s

def dsuPreSelect (K : Kernel) (r : DsuSocket) (s : SelectPass) : DsuSocket × SelectPass :=
  if fdIsset r.fd s.readfds then
    let s := { s with readfds := fdClr r.fd s.readfds }
    if r.monitoring then
      let (access, transfer, w) := tryMonitor K r s.transfer s.world
      let s := { s with world := w, transfer := transfer }
      match access with
      | .refused => (r, s)
      | .free => (r, s.listen r.shadowfd)
      | .locked => ({ r with locked := true }, s.listen r.shadowfd)
    else (r, s)
  else (r, s)

def dsuPostSelect (r : DsuSocket) (s : SelectPass) : DsuSocket × SelectPass :=
  let (r, w) := unlockFd r s.world
  if fdIsset r.shadowfd s.readfds then
    (r, { s with world := w, readfds := fdSet r.fd (fdClr r.shadowfd s.readfds) })
  else (r, { s with world := w })

/-- How a round of `select` ends. -/
inductive Round where
  /-- Only internal traffic came: `select` calls itself with the sets as they were. -/
  | again
  | returned (result : Int) (sets : FdSets)
  /-- `dsu_terminate` was called. -/
  | exited

/-- What a round of `select` comes to its kernel wait with. -/
structure SelectWait where
  proc : Proc
  asked : FdSets
  maxFds : Int
  timeout : Option Nat

/-- The state in which the passes over the records begin, before and after the kernel wait. -/
def Proc.pass (p : Proc) (readfds : Option FdSet) (maxFds : Int) : SelectPass where
  world := p.world
  readfds := readfds
  correction := p.correction
  transfer := false
  maxFds := maxFds

/-- `select` up to its kernel wait, past the termination detection. -/
def selectAsk (K : Kernel) (p : Proc) (nfds : Int) (sets : FdSets) (timeout : Option Nat) : SelectWait :=
  let (binds, pass) := walk (dsuPreSelect K) p.binds (p.pass sets.read nfds)
  let (binds, pass) := walk dsuSniffConn binds pass
  { proc := { p with binds := binds, world := pass.world }
    asked := { sets with read := pass.readfds }
    maxFds := pass.maxFds
    -- 100 microseconds, to narrow down the time between locks.
    timeout := if pass.transfer then some 100 else timeout }

/-- `select` from its kernel wait on, when that reports the sets `found`. -/
def selectServe (K : Kernel) (p : Proc) (found : FdSets) : FdSets × Int × Proc :=
  let (binds, pass) := walk (dsuHandleConn K) p.binds (p.pass found.read 0)
  let (binds, pass) := walk dsuPostSelect binds pass
  ({ found with read := pass.readfds }, found.size - pass.correction,
    { p with binds := binds, world := pass.world, correction := 0 })

/-- `select` past the termination detection, with its timeout in microseconds. -/
def selectRest (K : Kernel) (p : Proc) (nfds : Int) (sets : FdSets) (timeout : Option Nat) : Proc × Round :=
  let wait := selectAsk K p nfds sets timeout
  let (found, w) := wait.proc.world.select K wait.maxFds wait.asked wait.timeout
  let p := { wait.proc with world := w }
  match found with
  | none => (p, .returned (-1) wait.asked)
  | some found =>
    let (sets, result, p) := selectServe K p found
    (p, if result = 0 ∧ timeout.isNone then .again else .returned result sets)

def selectRound (K : Kernel) (p : Proc) (nfds : Int) (sets : FdSets) (timeout : Option Nat) : Proc × Round :=
  let p := dsuInitializeEvent K p
  if p.exited then (p, .exited) else selectRest K p nfds sets timeout

/-- `select`, with at most `rounds` restarts: `none` when it is still not done. -/
def select (K : Kernel) (nfds : Int) (sets : FdSets) (timeout : Option Nat) :
    Nat → Proc → Option (Proc × Round)
  | 0, _ => none
  | rounds + 1, p =>
    match selectRound K p nfds sets timeout with
    | (p, .again) => select K nfds sets timeout rounds p
    | done => some done

end OpenDSU
