import OpenDSU.Process
import Mathlib.Logic.Function.Basic

/-! The descriptors that the library tracks for the program, as the program itself knows them: by the results of
its own calls, whatever the library has noted. -/

namespace OpenDSU

/-- What the program has a descriptor for. -/
inductive Use where
  /-- Returned by `socket`, and not passed to `bind`. -/
  | socket
  /-- Passed to `bind`, with any result. -/
  | bound
  /-- Accepted on the bound socket `sockfd`. -/
  | connection (sockfd : Int)
deriving DecidableEq, Repr

/-- The use of each number: none where the program has closed it, or has it for what the library does not track, as a
    connection of a socket that was not bound or is closed. -/
abbrev Ledger := Int → Option Use

/-- What the program knows after a call. -/
def Ledger.after (K : Kernel) (l : Ledger) (p : Proc) : Call → Ledger
  | .socket =>
    let sockfd := (OpenDSU.socket K p).1
    if sockfd = -1 then l else Function.update l sockfd (some .socket)
  | .bind sockfd _ => if l sockfd = some .socket then Function.update l sockfd (some .bound) else l
  | .accept sockfd =>
    let sessionfd := (OpenDSU.accept K p sockfd).1
    if sessionfd = -1 then l
    else Function.update l sessionfd (if l sockfd = some .bound then some (.connection sockfd) else none)
  | .close sockfd => fun n => if n = sockfd ∨ l n = some (.connection sockfd) then none else l n
  | .epollCtl .. | .select .. | .ppoll .. | .epollWait .. => l

/-- A process with what its program knows. -/
structure Account where
  proc : Proc
  uses : Ledger

def Account.step (K : Kernel) (a : Account) (call : Call) : Option Account :=
  (a.proc.step K call).map fun p => { proc := p, uses := a.uses.after K a.proc call }

def accountMachine (K : Kernel) : Machine Account Call where
  init a := a.proc.Started ∧ a.uses = fun _ => none
  step := Account.step K

/-- A number stands in the lists where, and as often as, its use says. -/
structure Exact (p : Proc) (l : Ledger) : Prop where
  sockets : ∀ n, (p.sockets.map (·.fd)).count n = if l n = some .socket then 1 else 0
  binds : ∀ n, (p.binds.map (·.fd)).count n = if l n = some .bound then 1 else 0
  unbound : ∀ s ∈ p.sockets, s.fds = []
  fds : ∀ r ∈ p.binds, ∀ n, r.fds.count n = if l n = some (.connection r.fd) then 1 else 0
  /-- The record of a connection that is to be tracked is there. -/
  connected : ∀ n sockfd, l n = some (.connection sockfd) → l sockfd = some .bound

/-- A process with the descriptors that its program has obtained by its calls and not closed, tracked or not. -/
structure Possession where
  proc : Proc
  own : Int → Bool

/-- What the program has after a call. -/
def Possession.after (K : Kernel) (a : Possession) : Call → Int → Bool
  | .socket =>
    let sockfd := (OpenDSU.socket K a.proc).1
    if sockfd = -1 then a.own else Function.update a.own sockfd true
  | .accept sockfd =>
    let sessionfd := (OpenDSU.accept K a.proc sockfd).1
    if sessionfd = -1 then a.own else Function.update a.own sessionfd true
  | .close sockfd => Function.update a.own sockfd false
  | .bind .. | .epollCtl .. | .select .. | .ppoll .. | .epollWait .. => a.own

def Possession.step (K : Kernel) (a : Possession) (call : Call) : Option Possession :=
  (a.proc.step K call).map fun p => { proc := p, own := a.after K call }

/-- A process that begins with 0, 1 and 2 open. -/
def possessionMachine (K : Kernel) : Machine Possession Call where
  init a := a.proc.Started ∧ (∀ n, 0 ≤ n → n ≤ 2 → a.proc.world.isOpen n = true) ∧ a.own = fun _ => false
  step := Possession.step K

/-- The numbers that stand as `fd` of a record or in an `fds` list. -/
def Proc.tracked (p : Proc) : List Int := (p.sockets ++ p.binds).flatMap fun r => r.fd :: r.fds

/-- The numbers that `close` passes on without a look at the records. -/
def isStd (fd : Int) : Bool := fd = 0 || fd = 1 || fd = 2

end OpenDSU
