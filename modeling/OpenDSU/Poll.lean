import OpenDSU.Core
import OpenDSU.Lib.Compact

/-! `event_handlers/poll.c`. The caller's array is a list, the translated array `_fds` a function of the index
with its length `_nfds`. -/

namespace OpenDSU

structure PollFd where
  fd : Int
  events : Nat
  revents : Nat
deriving DecidableEq, Repr

def pollin : Nat := 1

/-- `FD_SETSIZE`, to which `ppoll` sets `nfds_max`. -/
def nfdsMax : Nat := 1024

/-- `_fds` after `memset` and `memcpy`. -/
def pollArray (fds : List PollFd) (i : Nat) : PollFd := fds.getD i { fd := 0, events := 0, revents := 0 }

/-- `dsu_compress_fds`: the entries with descriptor -1 are removed; `revents` is not moved. -/
def dsuCompressFds (fds : Nat → PollFd) (nfds : Nat) : Nat × (Nat → PollFd) :=
  compact (fun a b => { a with fd := b.fd, events := b.events }) (·.fd == -1) id 1 0 nfds fds

/-- The body of the loop of `dsu_pre_poll`. -/
def dsuPrePollEntry (K : Kernel) (e : PollFd) (st : List DsuSocket × World) :
    PollFd × List DsuSocket × World :=
  let (binds, w) := st
  match dsuSocketsSearchFd binds e.fd with
  | none => (e, binds, w)
  | some r =>
    let off := { e with fd := -1, revents := 0 }
    if r.monitoring then
      let (access, _, w) := tryMonitor K r false w
      match access with
      | .refused => (off, binds, w)
      | .free => ({ off with fd := r.shadowfd }, binds, w)
      | .locked =>
        ({ off with fd := r.shadowfd }, dsuSocketsUpdate (·.fd == e.fd) ({ · with locked := true }) binds, w)
    else (off, binds, w)

/-- `dsu_pre_poll` on the copy of the caller's array. -/
def dsuPrePoll (K : Kernel) (fds : List PollFd) (binds : List DsuSocket) (w : World) :
    (Nat × (Nat → PollFd)) × List DsuSocket × World :=
  let (fds, st) := walk (dsuPrePollEntry K) fds (binds, w)
  (dsuCompressFds (pollArray fds) fds.length, st)

/-- Append an entry for an internal descriptor while there is room. -/
def pollAppend (a : Nat × (Nat → PollFd)) (fd : Int) : Nat × (Nat → PollFd) :=
  if a.1 < nfdsMax then
    (a.1 + 1, Function.update a.2 a.1 { fd := fd, events := pollin, revents := 0 })
  else a

def dsuSniffConnPoll (r : DsuSocket) (a : Nat × (Nat → PollFd)) : DsuSocket × (Nat × (Nat → PollFd)) :=
  (r, r.comfds.foldl pollAppend (if r.monitoring then pollAppend a r.comfd else a))

/-- What the passes of `ppoll` after its wait change. -/
structure PollPass where
  world : World
  correction : Int

/-- The inner loop of `dsu_handle_conn_poll`, over `comfds` as it was when the entry was reached. -/
def dsuHandleComfdsPoll (K : Kernel) (fd : Int) : List Int → DsuSocket → World → DsuSocket × World
  | [], r, w => (r, w)
  | c :: cs, r, w =>
    if fd = c then
      let (_, r, w) := answerConn K c r w
      dsuHandleComfdsPoll K fd cs r w
    else dsuHandleComfdsPoll K fd cs r w

/-- The body of the outer loop of `dsu_handle_conn_poll`. -/
def dsuHandleEntryPoll (K : Kernel) (st : DsuSocket × PollPass) (e : PollFd) : DsuSocket × PollPass :=
  let (r, s) := st
  if e.revents = 0 then (r, s)
  else
    let (r, w) :=
      if e.fd = r.comfd then acceptConn K r s.world else dsuHandleComfdsPoll K e.fd r.comfds r s.world
    (r, { world := w, correction := s.correction + 1 })

def dsuHandleConnPoll (K : Kernel) (fds : Nat → PollFd) (start stop : Nat) (r : DsuSocket) (s : PollPass) :
    DsuSocket × PollPass :=
  (slice fds start (stop - start)).foldl (dsuHandleEntryPoll K) (r, s)

def dsuUnlock (r : DsuSocket) (w : World) : DsuSocket × World :=
  unlockFd r w

/-- The inner loop of `dsu_set_revents`: the first index from `k` on, where the entries `es` begin, that has
    the descriptor; `none` when it reads past the end of the array. -/
def seekFd (fd : Int) : List PollFd → Nat → Option Nat
  | [], _ => none
  | e :: es, k => if e.fd = fd then some k else seekFd fd es (k + 1)

/-- `dsu_set_revents` from index `i` of `_fds` on, with `n` entries left. -/
def dsuSetReventsFrom (binds : List DsuSocket) (fds' : Nat → PollFd) :
    Nat → Nat → Nat → List PollFd → Option (List PollFd)
  | 0, _, _, fds => some fds
  | n + 1, i, o, fds =>
    if (fds' i).revents = 0 then dsuSetReventsFrom binds fds' n (i + 1) o fds
    else
      match seekFd (dsuOriginalfd binds (fds' i).fd) (fds.drop (i + o)) (i + o) with
      | none => none
      | some k => dsuSetReventsFrom binds fds' n (i + 1) (k - i) (fds.modify k ({ · with revents := 1 }))

/-- `dsu_set_revents`: `none` where it leaves the caller's array. -/
def dsuSetRevents (binds : List DsuSocket) (fds : List PollFd) (fds' : Nat → PollFd) (nfds' : Nat) :
    Option (List PollFd) :=
  dsuSetReventsFrom binds fds' nfds' 0 0 fds

/-- The system call: the array with `revents` filled in, and the number of entries with an answer. Entries
    with a negative descriptor are passed over. -/
def World.ppoll (K : Kernel) (w : World) (fds : Nat → PollFd) (nfds : Nat) (timeout : Option Nat) :
    Option ((Nat → PollFd) × Nat) × World :=
  ((K.ppoll w timeout).map fun ready =>
      let fds := fun i =>
        if i < nfds then { fds i with revents := if (fds i).fd < 0 then 0 else ready i } else fds i
      (fds, (slice fds 0 nfds).countP (·.revents ≠ 0)),
    w.tick)

/-- What `ppoll` comes to its kernel wait with. -/
structure PollWait where
  proc : Proc
  fds : Nat → PollFd
  nfds : Nat

/-- `ppoll` up to its kernel wait, past the termination detection. -/
def pollAsk (K : Kernel) (p : Proc) (fds : List PollFd) : PollWait :=
  let (a, binds, w) := dsuPrePoll K fds p.binds p.world
  let (binds, a) := walk dsuSniffConnPoll binds a
  { proc := { p with binds := binds, world := w, correction := 0 }, fds := a.2, nfds := a.1 }

/-- `ppoll` after a kernel wait with a positive result: the handlers, which start at the number of the
    caller's entries, and the unlocking. -/
def pollServe (K : Kernel) (p : Proc) (fds' : Nat → PollFd) (nfds nfds' : Nat) : Proc :=
  let (binds, pass) :=
    walk (dsuHandleConnPoll K fds' nfds nfds') p.binds { world := p.world, correction := p.correction }
  let (binds, w) := walk dsuUnlock binds pass.world
  { p with binds := binds, world := w, correction := pass.correction }

/-- How `ppoll` ends; `overrun`: it searched past the end of the caller's array. -/
inductive PollResult where
  | returned (result : Int) (fds : List PollFd)
  | overrun
  | exited

/-- `ppoll` past the termination detection, with its timeout in nanoseconds. -/
def ppollRest (K : Kernel) (fds : List PollFd) (timeout : Option Nat) (p : Proc) : Proc × PollResult :=
  let wait := pollAsk K p fds
  let (found, w) := wait.proc.world.ppoll K wait.fds wait.nfds timeout
  let p := { wait.proc with world := w }
  match found with
  | none => (p, .returned (-1) fds)
  | some (fds', result) =>
    if result = 0 then (p, .returned 0 fds)
    else
      let p := pollServe K p fds' fds.length wait.nfds
      match dsuSetRevents p.binds fds fds' wait.nfds with
      | none => (p, .overrun)
      | some fds => (p, .returned (result - p.correction) fds)

def ppoll (K : Kernel) (fds : List PollFd) (timeout : Option Nat) (p : Proc) : Proc × PollResult :=
  let p := dsuInitializeEvent K p
  if p.exited then (p, .exited) else ppollRest K fds timeout p

/-- `poll`, with its timeout in milliseconds. -/
def poll (K : Kernel) (fds : List PollFd) (timeout : Int) (p : Proc) : Proc × PollResult :=
  ppoll K fds (if 0 ≤ timeout then some (timeout.toNat * 1000000) else none) p

end OpenDSU
