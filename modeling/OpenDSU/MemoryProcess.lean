import OpenDSU.Memory
import OpenDSU.Process

/-! The process with its records in memory: the wrappers and the event calls, which come to a record by following
pointers. What a pass does to the fields of one record is what it does to the record in the model on lists. -/

namespace OpenDSU

namespace Memory
variable {σ : Type} (K : Kernel) (pick : Memory → Nat)

/-! ### Passes over the records -/

/-- `dsu_forall_sockets`, from the record at `p` on. -/
def dsuForallSockets (body : Nat → Memory × σ → Option (Memory × σ)) : Nat → Nat → Memory × σ → Option (Memory × σ)
  | 0, _, _ => none
  | fuel + 1, p, s =>
    if p = 0 then some s
    else (body p s).bind fun s => (s.1.nodes p).bind fun c => dsuForallSockets body fuel c.next s

/-- A pass over `dsu_program_state.binds`. -/
def pass (body : Nat → Memory × σ → Option (Memory × σ)) (s : Memory × σ) : Option (Memory × σ) :=
  dsuForallSockets body s.1.top s.1.binds s

/-- A callback that leaves the lists of its record alone. -/
def onFields (f : DsuSocket → σ → DsuSocket × σ) (p : Nat) (s : Memory × σ) : Option (Memory × σ) :=
  (s.1.nodes p).bind fun c =>
    let (r, t) := f (c.val.record [] []) s.2
    (s.1.write p r).map fun m => (m, t)

/-- A loop over a list of descriptors. -/
def forallFds (each : σ → Int → σ) (h : Heap Int) : Nat → Nat → σ → Option σ
  | 0, _, _ => none
  | fuel + 1, p, s => if p = 0 then some s else (h p).bind fun c => forallFds each h fuel c.next (each s c.val)

/-- The callbacks that sniff: on the record, and then on each of `comfds`. -/
def sniff (first : DsuSocket → σ → σ) (each : σ → Int → σ) (p : Nat) (s : Memory × σ) : Option (Memory × σ) :=
  (s.1.nodes p).bind fun c =>
    (forallFds each s.1.fdNodes s.1.top c.val.comfds (first (c.val.record [] []) s.2)).map fun t => (s.1, t)

/-- The handlers' loop over `comfds` of the record at `p`, from the node at `q` on. `answer` says whether the
    connection is closed; the loop goes on to the next node before it removes that connection. -/
def visitComfds (answer : Int → DsuSocket → σ → Bool × DsuSocket × σ) (p : Nat) :
    Nat → Nat → Memory × σ → Option (Memory × σ)
  | 0, _, _ => none
  | fuel + 1, q, (m, s) =>
    if q = 0 then some (m, s)
    else
      (m.fdNodes q).bind fun d => (m.nodes p).bind fun c =>
        let (closed, r, s) := answer d.val (c.val.record [] []) s
        (m.write p r).bind fun m =>
          if closed then
            (m.fdNodes q).bind fun d =>
              let next := d.next
              (m.dsuSocketRemoveFds p d.val .internal).bind fun m => visitComfds answer p fuel next (m, s)
          else (m.fdNodes q).bind fun d => visitComfds answer p fuel d.next (m, s)

/-- The handlers, on a ready `comfd` of the record at `p`. -/
def acceptConn (p : Nat) (s : Memory × World) : Option (Memory × World) :=
  (s.1.nodes p).bind fun c =>
    let (acc, w) := s.2.accept4 K c.val.comfd
    if acc ≠ -1 then (s.1.dsuSocketAddFds pick p acc .internal).map fun m => (m, w) else some (s.1, w)

/-! ### `select` -/

def dsuSniffConn (p : Nat) (s : Memory × SelectPass) : Option (Memory × SelectPass) :=
  if s.2.readfds.isNone then some s
  else sniff (fun r s => if r.monitoring then s.listen r.comfd else s) SelectPass.listen p s

/-- The handler of `select`, on a connection. -/
def answerSelect (c : Int) (r : DsuSocket) (s : SelectPass) : Bool × DsuSocket × SelectPass :=
  if fdIsset c s.readfds then
    let (closed, r, w) := answerConn K c r s.world
    (closed, r, s.served c w)
  else (false, r, s)

def dsuHandleConn (p : Nat) (s : Memory × SelectPass) : Option (Memory × SelectPass) :=
  (s.1.nodes p).bind fun c =>
    (if fdIsset c.val.comfd s.2.readfds then
      (acceptConn K pick p (s.1, s.2.world)).map fun a => (a.1, s.2.served c.val.comfd a.2)
    else some s).bind fun s =>
      (s.1.nodes p).bind fun c => visitComfds (answerSelect K) p s.1.top c.val.comfds s

/-! ### `ppoll` -/

def dsuSniffConnPoll (p : Nat) (s : Memory × Nat × (Nat → PollFd)) : Option (Memory × Nat × (Nat → PollFd)) :=
  sniff (fun r a => if r.monitoring then pollAppend a r.comfd else a) pollAppend p s

/-- The handler of `ppoll`, on a connection, for an entry with the descriptor `fd`. -/
def answerPoll (fd c : Int) (r : DsuSocket) (w : World) : Bool × DsuSocket × World :=
  if fd = c then answerConn K c r w else (false, r, w)

/-- The body of the outer loop of `dsu_handle_conn_poll`. -/
def dsuHandleEntryPoll (p : Nat) (s : Memory × PollPass) (e : PollFd) : Option (Memory × PollPass) :=
  if e.revents = 0 then some s
  else
    (s.1.nodes p).bind fun c =>
      (if e.fd = c.val.comfd then acceptConn K pick p (s.1, s.2.world)
      else visitComfds (answerPoll K e.fd) p s.1.top c.val.comfds (s.1, s.2.world)).map fun a =>
        (a.1, { world := a.2, correction := s.2.correction + 1 })

def dsuHandleConnPoll (fds : Nat → PollFd) (start stop : Nat) (p : Nat) (s : Memory × PollPass) :
    Option (Memory × PollPass) :=
  (slice fds start (stop - start)).foldlM (dsuHandleEntryPoll K pick p) s

/-- The body of the loop of `dsu_pre_poll`. -/
def dsuPrePollEntry (e : PollFd) (s : Memory × World) : Option (PollFd × Memory × World) :=
  (s.1.dsuSocketsSearchFd s.1.binds e.fd).bind fun p =>
    if p = 0 then some (e, s)
    else
      (s.1.nodes p).bind fun c =>
        let r := c.val.record [] []
        let off := { e with fd := -1, revents := 0 }
        if r.monitoring then
          let (access, _, w) := tryMonitor K r false s.2
          match access with
          | .refused => some (off, s.1, w)
          | .free => some ({ off with fd := r.shadowfd }, s.1, w)
          | .locked =>
            (s.1.write p { r with locked := true }).map fun m => ({ off with fd := r.shadowfd }, m, w)
        else some (off, s)

/-- The loop of `dsu_pre_poll`, over the entries. -/
def dsuPrePollEntries : List PollFd → Memory × World → Option (List PollFd × Memory × World)
  | [], s => some ([], s)
  | e :: es, s =>
    (dsuPrePollEntry K e s).bind fun a => (dsuPrePollEntries es a.2).map fun b => (a.1 :: b.1, b.2)

def dsuSetReventsFrom (m : Memory) (fds' : Nat → PollFd) :
    Nat → Nat → Nat → List PollFd → Option (Option (List PollFd))
  | 0, _, _, fds => some (some fds)
  | n + 1, i, o, fds =>
    if (fds' i).revents = 0 then dsuSetReventsFrom m fds' n (i + 1) o fds
    else
      (m.dsuOriginalfd (fds' i).fd).bind fun fd =>
        match seekFd fd (fds.drop (i + o)) (i + o) with
        | none => some none
        | some k => dsuSetReventsFrom m fds' n (i + 1) (k - i) (fds.modify k ({ · with revents := 1 }))

/-! ### `epoll_wait` -/

def dsuEpollInternalConn (epollfd : Int) (p : Nat) (s : Memory × World) : Option (Memory × World) :=
  sniff (fun r w => if r.monitoring then epollListen K epollfd w r.comfd else w) (epollListen K epollfd) p s

/-- The handler of `epoll_wait`, on a connection, with the event. -/
def answerEpoll (epollfd c : Int) (r : DsuSocket) (s : Event × World) : Bool × DsuSocket × Event × World :=
  if s.1.ev.data.fd = c then
    let (closed, r, w) := answerConn K c r s.2
    if closed then
      let e := { s.1 with ev := { s.1.ev with data := { s.1.ev.data with fd := -1 } } }
      (true, r, e, (w.epollCtl K epollfd .del c noEvent true).2)
    else (false, r, s.1, w)
  else (false, r, s)

/-- The body of the outer loop of `dsu_handle_conn_epoll`. -/
def dsuHandleEntryEpoll (epollfd : Int) (p : Nat) (e : Event) (s : Memory × World) : Option (Event × Memory × World) :=
  if e.ev.events = 0 then some (e, s)
  else
    (s.1.nodes p).bind fun c =>
      if e.ev.data.fd = c.val.comfd then (acceptConn K pick p s).map fun s => (e, s)
      else
        (visitComfds (answerEpoll K epollfd) p s.1.top c.val.comfds (s.1, e, s.2)).map fun a => (a.2.1, a.1, a.2.2)

def dsuHandleEntriesEpoll (epollfd : Int) (p : Nat) : List Event → Memory × World → Option (List Event × Memory × World)
  | [], s => some ([], s)
  | e :: es, s =>
    (dsuHandleEntryEpoll K pick epollfd p e s).bind fun a =>
      (dsuHandleEntriesEpoll epollfd p es a.2).map fun b => (a.1 :: b.1, b.2)

def dsuHandleConnEpoll (epollfd : Int) (p : Nat) (s : Memory × List Event × World) : Option (Memory × List Event × World) :=
  (dsuHandleEntriesEpoll K pick epollfd p s.2.1 (s.1, s.2.2)).map fun a => (a.2.1, a.1, a.2.2)

def epollRestore (m : Memory) (e : Event) : Option Event :=
  (m.dsuSocketsSearchShadowfd m.binds e.ev.data.fd).bind fun p =>
    if p = 0 then some e
    else (m.nodes p).map fun c => if c.val.ev.events ≠ 0 then { e with ev := { c.val.ev with events := e.ev.events } } else e

def dsuEpollCorrectEvents (m : Memory) (nfds : Nat) (events : Nat → Event) : Option (Nat × (Nat → Event)) :=
  compactM (fun _ b => b) (fun e => m.dsuIsInternalConn e.ev.data.fd) m.epollRestore 0 0 nfds events

/-! ### The start of every event call -/

def dsuTerminationDetection (m : Memory) : Nat → Nat → World → Option (Bool × World)
  | 0, _, _ => none
  | fuel + 1, p, w =>
    if p = 0 then some (true, w)
    else
      (m.nodes p).bind fun c =>
        let (ok, w) := w.waitStatus K c.val.port
        let version := if ok then (w.status c.val.port).version else c.val.version
        if version ≤ c.val.version || c.val.monitoring || c.val.comfds != 0 || c.val.fds != 0 then some (false, w)
        else dsuTerminationDetection m fuel c.next w

end Memory

/-- What a call returns to the program. -/
inductive Result where
  | number (n : Int)
  | done (ok : Bool)
  | nothing
  | select (round : Round)
  | ppoll (result : PollResult)
  | epollWait (result : EpollResult)

/-- The process after a call and the result, in the model on lists. -/
def Proc.call (K : Kernel) (p : Proc) (call : Call) : Option (Proc × Result) :=
  if p.exited then none
  else match call with
    | .socket => let a := OpenDSU.socket K p; some (a.2, .number a.1)
    | .bind sockfd port => let a := OpenDSU.bind K p sockfd port; some (a.2, .number a.1)
    | .accept sockfd => let a := OpenDSU.accept K p sockfd; some (a.2, .number a.1)
    | .close sockfd => some (OpenDSU.close K p sockfd, .nothing)
    | .epollCtl epfd op fd event => let a := OpenDSU.epollCtl K p epfd op fd event; some (a.2, .done a.1)
    | .select nfds sets timeout rounds =>
      (OpenDSU.select K nfds sets timeout rounds p).map fun a => (a.1, .select a.2)
    | .ppoll fds timeout =>
      match OpenDSU.ppoll K fds timeout p with
      | (_, .overrun) => none
      | (p, result) => some (p, .ppoll result)
    | .epollWait epfd events maxevents timeout =>
      let a := OpenDSU.epollWait K epfd events maxevents timeout p
      some (a.1, .epollWait a.2)

def Proc.calls (K : Kernel) : List Call → Proc → Option (Proc × List Result)
  | [], p => some (p, [])
  | c :: cs, p => (p.call K c).bind fun a => (Proc.calls K cs a.1).map fun b => (b.1, a.2 :: b.2)

/-- A process whose records are in memory. -/
structure MemoryProc where
  pgid : Int
  memory : Memory
  live : Bool
  correction : Int
  world : World
  exited : Bool

namespace MemoryProc
variable (K : Kernel) (pick : Memory → Nat)

def dsuTerminate (q : MemoryProc) : MemoryProc :=
  let (ok, w) := q.world.waitWorkers K
  { q with world := if ok then { w with workers := w.workers - 1 } else w, exited := true }

def dsuGoLive (q : MemoryProc) : Option MemoryProc :=
  if q.live then some q
  else
    (Memory.pass (Memory.onFields (dsuConfigureSocket K)) (q.memory, dsuActivateProcess K q.world)).map fun a =>
      { q with memory := a.1, world := a.2, live := true }

def dsuInitializeEvent (q : MemoryProc) : Option MemoryProc :=
  (q.dsuGoLive K).bind fun q =>
    (Memory.pass (Memory.onFields (dsuMonitorFd K q.pgid)) (q.memory, q.world)).bind fun a =>
      (a.1.dsuTerminationDetection K a.1.top a.1.binds a.2).map fun b =>
        let q := { q with memory := a.1, world := b.2 }
        if b.1 then q.dsuTerminate K else q

/-! ### `select` -/

def selectPass (q : MemoryProc) (readfds : Option FdSet) (maxFds : Int) : SelectPass where
  world := q.world
  readfds := readfds
  correction := q.correction
  transfer := false
  maxFds := maxFds

/-- `select` up to its kernel wait: the process, the sets, the number and the timeout that it waits with. -/
def selectAsk (q : MemoryProc) (nfds : Int) (sets : FdSets) (timeout : Option Nat) :
    Option (MemoryProc × FdSets × Int × Option Nat) :=
  (Memory.pass (Memory.onFields (dsuPreSelect K)) (q.memory, q.selectPass sets.read nfds)).bind fun a =>
    (Memory.pass Memory.dsuSniffConn a).map fun (m, pass) =>
      ({ q with memory := m, world := pass.world }, { sets with read := pass.readfds }, pass.maxFds,
        if pass.transfer then some 100 else timeout)

/-- `select` from its kernel wait on. -/
def selectServe (q : MemoryProc) (found : FdSets) : Option (FdSets × Int × MemoryProc) :=
  (Memory.pass (Memory.dsuHandleConn K pick) (q.memory, q.selectPass found.read 0)).bind fun a =>
    (Memory.pass (Memory.onFields dsuPostSelect) a).map fun (m, pass) =>
      ({ found with read := pass.readfds }, found.size - pass.correction,
        { q with memory := m, world := pass.world, correction := 0 })

/-- `select` past the termination detection. -/
def selectRest (q : MemoryProc) (nfds : Int) (sets : FdSets) (timeout : Option Nat) : Option (MemoryProc × Round) :=
  (q.selectAsk K nfds sets timeout).bind fun (q, asked, maxFds, wait) =>
    let (found, w) := q.world.select K maxFds asked wait
    let q := { q with world := w }
    match found with
    | none => some (q, .returned (-1) asked)
    | some found =>
      (q.selectServe K pick found).map fun (sets, result, q) =>
        (q, if result = 0 ∧ timeout.isNone then .again else .returned result sets)

def selectRound (q : MemoryProc) (nfds : Int) (sets : FdSets) (timeout : Option Nat) : Option (MemoryProc × Round) :=
  (q.dsuInitializeEvent K).bind fun q =>
    if q.exited then some (q, .exited) else q.selectRest K pick nfds sets timeout

/-- The inner `none`: it is not done after `rounds` restarts. -/
def select (nfds : Int) (sets : FdSets) (timeout : Option Nat) : Nat → MemoryProc → Option (Option (MemoryProc × Round))
  | 0, _ => some none
  | rounds + 1, q =>
    (q.selectRound K pick nfds sets timeout).bind fun
      | (q, .again) => select nfds sets timeout rounds q
      | done => some (some done)

/-! ### `ppoll` -/

/-- `ppoll` up to its kernel wait: the process, and the array that it waits with. -/
def pollAsk (fds : List PollFd) (q : MemoryProc) : Option (MemoryProc × Nat × (Nat → PollFd)) :=
  (Memory.dsuPrePollEntries K fds (q.memory, q.world)).bind fun (entries, m, w) =>
    (Memory.pass Memory.dsuSniffConnPoll (m, dsuCompressFds (pollArray entries) entries.length)).map fun (m, a) =>
      ({ q with memory := m, world := w, correction := 0 }, a)

/-- `ppoll` after a kernel wait with a positive result. -/
def pollServe (q : MemoryProc) (fds' : Nat → PollFd) (nfds nfds' : Nat) : Option MemoryProc :=
  (Memory.pass (Memory.dsuHandleConnPoll K pick fds' nfds nfds')
    (q.memory, { world := q.world, correction := q.correction })).bind fun (m, pass) =>
    (Memory.pass (Memory.onFields dsuUnlock) (m, pass.world)).map fun (m, w) =>
      { q with memory := m, world := w, correction := pass.correction }

/-- `ppoll` past the termination detection. -/
def ppollRest (fds : List PollFd) (timeout : Option Nat) (q : MemoryProc) : Option (MemoryProc × PollResult) :=
  (q.pollAsk K fds).bind fun (q, nfds', fds') =>
    let (found, w) := q.world.ppoll K fds' nfds' timeout
    let q := { q with world := w }
    match found with
    | none => some (q, .returned (-1) fds)
    | some (fds', result) =>
      if result = 0 then some (q, .returned 0 fds)
      else
        (q.pollServe K pick fds' fds.length nfds').bind fun q =>
          (q.memory.dsuSetReventsFrom fds' nfds' 0 0 fds).map fun
            | none => (q, .overrun)
            | some fds => (q, .returned (result - q.correction) fds)

def ppoll (fds : List PollFd) (timeout : Option Nat) (q : MemoryProc) : Option (MemoryProc × PollResult) :=
  (q.dsuInitializeEvent K).bind fun q => if q.exited then some (q, .exited) else q.ppollRest K pick fds timeout

/-! ### `epoll_wait` -/

def dsuPostEpoll (epollfd : Int) (q : MemoryProc) (es : List Event) (events : Nat → Event) :
    Option (MemoryProc × Nat × (Nat → Event)) :=
  (Memory.pass (Memory.dsuHandleConnEpoll K pick epollfd) (q.memory, es, q.world)).bind fun (m, es, w) =>
    (Memory.pass (Memory.onFields dsuEpollUnlock) (m, w)).bind fun a =>
      (Memory.pass (Memory.onFields (dsuEpollOriginalfd K epollfd)) a).bind fun (m, w) =>
        (m.dsuEpollCorrectEvents es.length (storeEvents es events)).map fun b =>
          ({ q with memory := m, world := w }, b)

/-- `epoll_wait` past `dsu_initialize_event`. -/
def epollRest (epfd : Int) (events : Nat → Event) (maxevents : Nat) (timeout : Option Nat) (q : MemoryProc) :
    Option (MemoryProc × EpollResult) :=
  (Memory.pass (Memory.onFields (dsuEpollShadowfd K epfd)) (q.memory, q.world)).bind fun a =>
    (Memory.pass (Memory.dsuEpollInternalConn K epfd) a).bind fun (m, w) =>
      let (found, w) := w.epollWait K epfd maxevents timeout
      let q := { q with memory := m, world := w }
      match found with
      | some es => (q.dsuPostEpoll K pick epfd es events).map fun (q, n, events) => (q, .returned n events)
      | none => (q.dsuPostEpoll K pick epfd [] events).map fun (q, _) => (q, .returned (-1) events)

def epollWait (epfd : Int) (events : Nat → Event) (maxevents : Nat) (timeout : Option Nat) (q : MemoryProc) :
    Option (MemoryProc × EpollResult) :=
  (q.dsuInitializeEvent K).bind fun q =>
    if q.exited then some (q, .exited) else q.epollRest K pick epfd events maxevents timeout

def epollCtl (q : MemoryProc) (epfd : Int) (op : EpollOp) (fd : Int) (event : EpollEvent) : Option (Bool × MemoryProc) :=
  (q.memory.dsuSocketsSearchFd q.memory.binds fd).bind fun p =>
    if p = 0 then
      let (ok, w) := q.world.epollCtl K epfd op fd event false
      some (ok, { q with world := w })
    else
      (q.memory.nodes p).bind fun c =>
        let stored := if op = .del then noEvent else event
        let (ok, w) := q.world.epollCtl K epfd op c.val.shadowfd event false
        (q.memory.write p { c.val.record [] [] with ev := stored }).map fun m => (ok, { q with memory := m, world := w })

/-! ### The other wrappers -/

def socket (q : MemoryProc) : Option (Int × MemoryProc) :=
  let (sockfd, w) := q.world.allot K .user
  if 0 < sockfd then
    let r := { dsuSocketListInit with shadowfd := sockfd, fd := sockfd }
    (q.memory.dsuSocketsAdd pick .sockets (SocketNode.bare r)).map fun m => (sockfd, { q with memory := m, world := w })
  else some (sockfd, { q with world := w })

/-- The end of `bind`: the fields that it has set, and the move of the record at `p`. -/
def transfer (q : MemoryProc) (p : Nat) (s : DsuSocket) (w : World) : Option MemoryProc :=
  (q.memory.write p s).bind fun m =>
    (m.dsuSocketsTransferFd pick .binds .sockets p).map fun m => { q with memory := m, world := w }

/-- `bind` from `No other version running` on. -/
def bindFirst (q : MemoryProc) (p : Nat) (s : DsuSocket) (w : World) : Option (Int × MemoryProc) :=
  let (s, w) := openSems K s w
  let (s, w) := enterFirst K q.pgid s w
  (q.transfer pick p s w.tick).map fun q => (if K.bind w s.fd then 0 else -1, q)

/-- `bind` where `dsu_inherit_fd` has returned the port. -/
def bindInherit (q : MemoryProc) (p : Nat) (s : DsuSocket) (w : World) : Option (Int × MemoryProc) :=
  let (s, w) := openSems K s w
  let (s, w) := enterInherit K q.pgid s w
  (q.transfer pick p s w).map fun q => (0, q)

def bind (q : MemoryProc) (sockfd : Int) (port : Nat) : Option (Int × MemoryProc) :=
  (q.memory.dsuSocketsSearchFd q.memory.sockets sockfd).bind fun p =>
    if p = 0 then some (-1, q)
    else
      (q.memory.nodes p).bind fun c =>
        let (comfd, w) := q.world.allot K .com
        let s := { c.val.record [] [] with port := port, comfd := comfd }
        let (named, w) := dsuMonitorInit K s w
        if named = .inUse then
          let (res, s, w) := dsuInheritFd K s w
          if 0 < res then q.bindInherit K pick p s w else q.bindFirst K pick p s w
        else q.bindFirst K pick p s w

def accept (q : MemoryProc) (sockfd : Int) : Option (Int × MemoryProc) :=
  (q.memory.dsuShadowfd sockfd).bind fun shadowfd =>
    (q.memory.dsuSocketsSearchFd q.memory.binds sockfd).bind fun p =>
      let (sessionfd, w) := q.world.accept K shadowfd (if p ≠ 0 then .client else .user)
      if sessionfd = -1 then some (-1, { q with world := w })
      else if p ≠ 0 then
        (q.memory.dsuSocketAddFds pick p sessionfd .nonInternal).map fun m =>
          (sessionfd, { q with memory := m, world := w })
      else some (sessionfd, { q with world := w })

/-- `dsu_close`, when the lists are as the wrapper leaves them. -/
def dsuClose (q : MemoryProc) (fd : Int) (m : Memory) : MemoryProc :=
  { q with memory := m, world := q.world.close K fd }

def close (q : MemoryProc) (sockfd : Int) : Option MemoryProc :=
  let m := q.memory
  if sockfd = 0 || sockfd = 1 || sockfd = 2 then some (q.dsuClose K sockfd m)
  else (m.dsuSocketsSearchFd m.sockets sockfd).bind fun p =>
    if p ≠ 0 then (m.dsuSocketsRemoveFd .sockets sockfd).map (q.dsuClose K sockfd)
    else (m.dsuSocketsSearchFd m.binds sockfd).bind fun p =>
      if p ≠ 0 then (m.dsuSocketsRemoveFd .binds sockfd).map (q.dsuClose K sockfd)
      else (m.dsuSocketsSearchFds m.binds sockfd .monitor).bind fun p =>
        if p ≠ 0 then
          (m.nodes p).bind fun c =>
            (m.write p { c.val.record [] [] with monitoring := false }).map (q.dsuClose K sockfd)
        else (m.dsuSocketsSearchFds m.binds sockfd .internal).bind fun p =>
          if p ≠ 0 then (m.dsuSocketRemoveFds p sockfd .internal).map (q.dsuClose K sockfd)
          else (m.dsuSocketsSearchFds m.binds sockfd .nonInternal).bind fun p =>
            if p ≠ 0 then (m.dsuSocketRemoveFds p sockfd .nonInternal).map (q.dsuClose K sockfd)
            else some (q.dsuClose K sockfd m)

/-- The process after a call and the result; the outer `none` is an access to memory that is not allocated. -/
def call (q : MemoryProc) (call : Call) : Option (Option (MemoryProc × Result)) :=
  if q.exited then some none
  else match call with
    | .socket => (q.socket K pick).map fun a => some (a.2, .number a.1)
    | .bind sockfd port => (q.bind K pick sockfd port).map fun a => some (a.2, .number a.1)
    | .accept sockfd => (q.accept K pick sockfd).map fun a => some (a.2, .number a.1)
    | .close sockfd => (q.close K sockfd).map fun q => some (q, .nothing)
    | .epollCtl epfd op fd event => (q.epollCtl K epfd op fd event).map fun a => some (a.2, .done a.1)
    | .select nfds sets timeout rounds =>
      (q.select K pick nfds sets timeout rounds).map (Option.map fun a => (a.1, .select a.2))
    | .ppoll fds timeout => (q.ppoll K pick fds timeout).map fun
      | (_, .overrun) => none
      | (q, result) => some (q, .ppoll result)
    | .epollWait epfd events maxevents timeout =>
      (q.epollWait K pick epfd events maxevents timeout).map fun a => some (a.1, .epollWait a.2)

/-- The calls of a program, one after the other, with their results. -/
def calls : List Call → MemoryProc → Option (Option (MemoryProc × List Result))
  | [], q => some (some (q, []))
  | c :: cs, q => (q.call K pick c).bind fun
    | none => some none
    | some (q, result) => (calls cs q).map (Option.map fun a => (a.1, result :: a.2))

end MemoryProc
end OpenDSU
