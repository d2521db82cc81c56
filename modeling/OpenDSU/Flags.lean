import OpenDSU.Process
import Mathlib.Logic.Function.Basic

/-! `O_NONBLOCK` of the open files of a process, which the program sets and `dsu_is_blocking` reads, and the states in
which an event call enters its kernel waits. -/

namespace OpenDSU

/-- A process with the open files that have `O_NONBLOCK`. -/
structure Flagged where
  proc : Proc
  nonblock : Nat → Bool

/-- `dsu_is_blocking`. `F_GETFL` of what is no open descriptor is -1, and has every bit. -/
def dsuIsBlocking (nonblock : Nat → Bool) (w : World) (fd : Int) : Bool :=
  decide (0 ≤ fd) && (w.fdt fd).any fun file => !nonblock file.id

/-- The kernel that answers `F_GETFL` by these flags. -/
def Kernel.reading (K : Kernel) (nonblock : Nat → Bool) : Kernel := { K with blocking := dsuIsBlocking nonblock }

inductive FlagCall where
  | socket
  | bind (sockfd : Int) (port : Nat)
  /-- `fcntl` with `F_SETFL`, or `ioctl` with `FIONBIO`. -/
  | setfl (fd : Int) (nonblock : Bool)
  /-- `epoll_ctl`, `select`, `ppoll` or `epoll_wait`. -/
  | event (call : Call)

namespace Flagged

/-- The open file that a flag is set on: the wrappers pass the shadow descriptor on. -/
def target (a : Flagged) (fd : Int) : Option File := a.proc.world.fdt (dsuShadowfd a.proc.binds fd)

def afterSetfl (a : Flagged) (fd : Int) (nonblock : Bool) : Nat → Bool :=
  match a.target fd with
  | some file => Function.update a.nonblock file.id nonblock
  | none => a.nonblock

def step (K : Kernel) (a : Flagged) : FlagCall → Option Flagged
  | .socket => (a.proc.step K .socket).map ({ a with proc := · })
  | .bind sockfd port => (a.proc.step K (.bind sockfd port)).map ({ a with proc := · })
  | .setfl fd nonblock => if a.proc.exited then none else some { a with nonblock := a.afterSetfl fd nonblock }
  | .event call =>
    match call with
    | .epollCtl .. | .select .. | .ppoll .. | .epollWait .. =>
      (a.proc.step (K.reading a.nonblock) call).map ({ a with proc := · })
    | .socket | .bind .. | .accept _ | .close _ => none

end Flagged

/-- A process that has just been loaded, with any flags of its open files and of those to come. -/
def flagMachine (K : Kernel) : Machine Flagged FlagCall where
  init a := a.proc.Started
  step := Flagged.step K

/-! ### Kernel waits -/

/-- The states in which a `select` enters its kernel waits, round by round. -/
def selectWaits (K : Kernel) (nfds : Int) (sets : FdSets) (timeout : Option Nat) : Nat → Proc → List Proc
  | 0, _ => []
  | rounds + 1, p =>
    let q := dsuInitializeEvent K p
    if q.exited then []
    else (selectAsk K q nfds sets timeout).proc ::
      match selectRound K p nfds sets timeout with
      | (p, .again) => selectWaits K nfds sets timeout rounds p
      | _ => []

/-- The states in which a call enters its kernel waits. -/
def Call.entries (K : Kernel) (p : Proc) : Call → List Proc
  | .select nfds sets timeout rounds => selectWaits K nfds sets timeout rounds p
  | .ppoll fds _ =>
    let q := dsuInitializeEvent K p
    if q.exited then [] else [(pollAsk K q fds).proc]
  | .epollWait epfd _ _ _ =>
    let q := dsuInitializeEvent K p
    if q.exited then []
    else
      let (binds, w) := dsuPreEpoll K epfd q.binds q.world
      [{ q with binds := binds, world := w }]
  | .socket | .bind .. | .accept _ | .close _ | .epollCtl .. => []

end OpenDSU
