import OpenDSU.Core
import OpenDSU.Lib.Compact
import Mathlib.Data.List.Defs

/-! `event_handlers/epoll.c`. The caller's array is a function of the index. -/

namespace OpenDSU

def epollin : Nat := 1

/-- An entry of the array of events. `origin` is not in the source: the registration that the kernel
    reported in the entry. -/
structure Event where
  ev : EpollEvent
  origin : Option Reg
deriving DecidableEq, Repr

def noEvent : EpollEvent := { events := 0, data := { fd := 0, hi := 0 } }

/-- `epoll_ctl`: the event of a bound socket is stored in its first record. -/
def epollCtl (K : Kernel) (p : Proc) (epfd : Int) (op : EpollOp) (fd : Int) (event : EpollEvent) : Bool × Proc :=
  match dsuSocketsSearchFd p.binds fd with
  | none =>
    let (ok, w) := p.world.epollCtl K epfd op fd event false
    (ok, { p with world := w })
  | some r =>
    let stored := if op = .del then noEvent else event
    let (ok, w) := p.world.epollCtl K epfd op r.shadowfd event false
    (ok, { p with binds := dsuSocketsUpdate (·.fd == fd) ({ · with ev := stored }) p.binds, world := w })

/-- Register an internal descriptor, under its own number. -/
def epollListen (K : Kernel) (epollfd : Int) (w : World) (fd : Int) : World :=
  (w.epollCtl K epollfd .add fd { events := epollin, data := { fd := fd, hi := 0 } } true).2

def dsuEpollInternalConn (K : Kernel) (epollfd : Int) (r : DsuSocket) (w : World) : DsuSocket × World :=
  (r, r.comfds.foldl (epollListen K epollfd) (if r.monitoring then epollListen K epollfd w r.comfd else w))

/-- The inner loop of `dsu_handle_conn_epoll`: the event of a closed connection is marked with -1, and its
    registration is deleted after the descriptor is closed. -/
def dsuHandleComfdsEpoll (K : Kernel) (epollfd : Int) :
    List Int → Event → DsuSocket → World → Event × DsuSocket × World
  | [], e, r, w => (e, r, w)
  | c :: cs, e, r, w =>
    if e.ev.data.fd = c then
      let (closed, r, w) := answerConn K c r w
      if closed then
        let e := { e with ev := { e.ev with data := { e.ev.data with fd := -1 } } }
        dsuHandleComfdsEpoll K epollfd cs e r (w.epollCtl K epollfd .del c noEvent true).2
      else dsuHandleComfdsEpoll K epollfd cs e r w
    else dsuHandleComfdsEpoll K epollfd cs e r w

/-- The body of the outer loop of `dsu_handle_conn_epoll`. -/
def dsuHandleEntryEpoll (K : Kernel) (epollfd : Int) (e : Event) (st : DsuSocket × World) :
    Event × DsuSocket × World :=
  let (r, w) := st
  if e.ev.events = 0 then (e, r, w)
  else if e.ev.data.fd = r.comfd then (e, acceptConn K r w)
  else dsuHandleComfdsEpoll K epollfd r.comfds e r w

/-- `dsu_handle_conn_epoll`, on the events that the wait reported. -/
def dsuHandleConnEpoll (K : Kernel) (epollfd : Int) (r : DsuSocket) (s : List Event × World) :
    DsuSocket × List Event × World :=
  let (events, r, w) := walk (dsuHandleEntryEpoll K epollfd) s.1 (r, s.2)
  (r, events, w)

def dsuEpollShadowfd (K : Kernel) (epollfd : Int) (r : DsuSocket) (w : World) : DsuSocket × World :=
  let w := if r.ev.events ≠ 0 then (w.epollCtl K epollfd .del r.fd noEvent false).2 else w
  let ev := { r.ev with data := { r.ev.data with fd := r.shadowfd } }
  if r.monitoring && r.ev.events ≠ 0 then
    let (access, _, w) := tryMonitor K r false w
    match access with
    | .refused => (r, w)
    | .free => (r, (w.epollCtl K epollfd .add r.shadowfd ev false).2)
    | .locked => ({ r with locked := true }, (w.epollCtl K epollfd .add r.shadowfd ev false).2)
  else (r, w)

def dsuPreEpoll (K : Kernel) (epollfd : Int) (binds : List DsuSocket) (w : World) : List DsuSocket × World :=
  let (binds, w) := walk (dsuEpollShadowfd K epollfd) binds w
  walk (dsuEpollInternalConn K epollfd) binds w

def dsuEpollUnlock (r : DsuSocket) (w : World) : DsuSocket × World :=
  unlockFd r w

def dsuEpollOriginalfd (K : Kernel) (epollfd : Int) (r : DsuSocket) (w : World) : DsuSocket × World :=
  if r.ev.events ≠ 0 then
    let w := (w.epollCtl K epollfd .del r.shadowfd noEvent false).2
    (r, (w.epollCtl K epollfd .add r.fd r.ev false).2)
  else (r, w)

/-- What `dsu_epoll_correct_events` makes of an event that it keeps. -/
def epollRestore (binds : List DsuSocket) (e : Event) : Event :=
  match dsuSocketsSearchShadowfd binds e.ev.data.fd with
  | some r => if r.ev.events ≠ 0 then { e with ev := { r.ev with events := e.ev.events } } else e
  | none => e

def dsuEpollCorrectEvents (binds : List DsuSocket) (nfds : Nat) (events : Nat → Event) : Nat × (Nat → Event) :=
  compact (fun _ b => b) (fun e => dsuIsInternalConn binds e.ev.data.fd) (epollRestore binds) 0 0 nfds events

/-- The array with the first entries replaced. -/
def storeEvents (es : List Event) (events : Nat → Event) (i : Nat) : Event := es.getD i (events i)

/-- `dsu_post_epoll`, where the wait reported the events `es`; an error of the wait is passed on. -/
def dsuPostEpoll (K : Kernel) (epollfd : Int) (p : Proc) (es : List Event) (events : Nat → Event) :
    Proc × Nat × (Nat → Event) :=
  let (binds, es, w) := walk (dsuHandleConnEpoll K epollfd) p.binds (es, p.world)
  let (binds, w) := walk dsuEpollUnlock binds w
  let (binds, w) := walk (dsuEpollOriginalfd K epollfd) binds w
  ({ p with binds := binds, world := w }, dsuEpollCorrectEvents binds es.length (storeEvents es events))

/-- The system call: registrations of the instance that are ready, each once and at most `maxevents` of
    them, with a mask that is not empty. -/
def World.epollWait (K : Kernel) (w : World) (epfd : Int) (maxevents : Nat) (timeout : Option Nat) :
    Option (List Event) × World :=
  ((K.epollWait w epfd timeout).map fun ready =>
      let ready := (ready.filter fun g => g.1 ∈ w.regs ∧ g.1.epfd = epfd ∧ g.2 ≠ 0).pwFilter (·.1 ≠ ·.1)
      (ready.take maxevents).map fun g =>
        { ev := { events := g.2, data := g.1.ev.data }, origin := some g.1 },
    w.tick)

inductive EpollResult where
  | returned (result : Int) (events : Nat → Event)
  | exited

/-- `epoll_wait` past `dsu_initialize_event`, with its timeout in milliseconds. -/
def epollRest (K : Kernel) (epfd : Int) (events : Nat → Event) (maxevents : Nat) (timeout : Option Nat) (p : Proc) :
    Proc × EpollResult :=
  let (binds, w) := dsuPreEpoll K epfd p.binds p.world
  let (found, w) := w.epollWait K epfd maxevents timeout
  let p := { p with binds := binds, world := w }
  match found with
  | some es =>
    let (p, n, events) := dsuPostEpoll K epfd p es events
    (p, .returned n events)
  | none => ((dsuPostEpoll K epfd p [] events).1, .returned (-1) events)

def epollWait (K : Kernel) (epfd : Int) (events : Nat → Event) (maxevents : Nat) (timeout : Option Nat) (p : Proc) :
    Proc × EpollResult :=
  let p := dsuInitializeEvent K p
  if p.exited then (p, .exited) else epollRest K epfd events maxevents timeout p

end OpenDSU
