import OpenDSU.Poll

/-! `ppoll` where the caller's array lies in a longer buffer, and what it should report. `dsu_set_revents` is not
told where the array ends, and searches the buffer. -/

namespace OpenDSU

/-- `ppoll` past the termination detection, where `rest` lies behind the caller's array `fds`. -/
def ppollRestIn (K : Kernel) (fds rest : List PollFd) (timeout : Option Nat) (p : Proc) : Proc × PollResult :=
  let wait := pollAsk K p fds
  let (found, w) := wait.proc.world.ppoll K wait.fds wait.nfds timeout
  let p := { wait.proc with world := w }
  match found with
  | none => (p, .returned (-1) (fds ++ rest))
  | some (fds', result) =>
    if result = 0 then (p, .returned 0 (fds ++ rest))
    else
      let p := pollServe K p fds' fds.length wait.nfds
      match dsuSetRevents p.binds (fds ++ rest) fds' wait.nfds with
      | none => (p, .overrun)
      | some buf => (p, .returned (result - p.correction) buf)

def ppollIn (K : Kernel) (fds rest : List PollFd) (timeout : Option Nat) (p : Proc) : Proc × PollResult :=
  let p := dsuInitializeEvent K p
  if p.exited then (p, .exited) else ppollRestIn K fds rest timeout p

/-! ### The answers to the caller's entries

`l` is the array that the caller's entries are translated to, before `dsu_compress_fds` removes the ones with -1. -/

/-- Where the entry is after the compression, unless it is removed. -/
def pollIndex (l : List PollFd) (k : Nat) : Nat := (l.take k).countP (·.fd ≠ -1)

/-- What the kernel has answered to the entry: nothing if it was removed. -/
def pollAnswer (l : List PollFd) (fds' : Nat → PollFd) (k : Nat) : Nat :=
  match l[k]? with
  | some e => if e.fd = -1 then 0 else (fds' (pollIndex l k)).revents
  | none => 0

/-- The number of the caller's entries that are ready. -/
def pollAnswers (l : List PollFd) (fds' : Nat → PollFd) : Nat :=
  (List.range l.length).countP (pollAnswer l fds' · ≠ 0)

/-- The number of ready entries from index `start` of the translated array on. -/
def readyFrom (fds' : Nat → PollFd) (start stop : Nat) : Nat :=
  (slice fds' start (stop - start)).countP (·.revents ≠ 0)

end OpenDSU
