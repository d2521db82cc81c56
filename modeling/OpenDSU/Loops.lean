import OpenDSU.Poll
import OpenDSU.Epoll
import OpenDSU.Lib.CompactLoop
import Mathlib.Algebra.Order.Ring.Int

/-! The nested loops of `dsu_compress_fds` and `dsu_epoll_correct_events` pass by pass, with the C types of their
indices and bounds. -/

namespace OpenDSU

/-- At the test of the loop over `i`, or of the one over `j`. Both are an `int`. -/
inductive LoopTest where
  | outer (i : Int)
  | inner (i j : Int)
deriving DecidableEq, Repr

/-- An `int` where it is compared with an `nfds_t`, which has no sign. -/
def toNfds (i : Int) : Nat := (i % 2 ^ 64).toNat

structure CompressFds where
  test : LoopTest
  nfds : Nat
  fds : Nat → PollFd

/-- `dsu_compress_fds`. -/
def compressPass (s : CompressFds) : Option CompressFds :=
  match s.test with
  | .outer i =>
    if toNfds i < s.nfds then
      if (s.fds i.toNat).fd = -1 then some { s with test := .inner i i }
      else some { s with test := .outer (i + 1) }
    else none
  | .inner i j =>
    if toNfds j < s.nfds then
      let next := s.fds (j + 1).toNat
      some { s with
        test := .inner i (j + 1)
        fds := Function.update s.fds j.toNat { s.fds j.toNat with fd := next.fd, events := next.events } }
    else
      -- `i--`, `(*nfds)--`, and the `i++` of the outer loop.
      some { s with test := .outer (i - 1 + 1), nfds := (s.nfds + (2 ^ 64 - 1)) % 2 ^ 64 }

structure CorrectEvents where
  test : LoopTest
  nfds : Int
  events : Nat → Event

/-- `dsu_epoll_correct_events`. -/
def correctPass (binds : List DsuSocket) (s : CorrectEvents) : Option CorrectEvents :=
  match s.test with
  | .outer i =>
    if i < s.nfds then
      let e := s.events i.toNat
      if dsuIsInternalConn binds e.ev.data.fd then some { s with test := .inner i i }
      else some { s with test := .outer (i + 1), events := Function.update s.events i.toNat (epollRestore binds e) }
    else none
  | .inner i j =>
    if j < s.nfds - 1 then
      some { s with
        test := .inner i (j + 1)
        events := Function.update s.events j.toNat (s.events (j + 1).toNat) }
    else some { s with test := .outer (i - 1 + 1), nfds := s.nfds - 1 }

end OpenDSU
