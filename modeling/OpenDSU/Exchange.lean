import OpenDSU.Core

/-! `dsu_inherit_fd` and `dsu_read_fd` on the single results of the calls that they make. -/

namespace OpenDSU

/-- The control data of a message: none of the size of a descriptor, some of another level or type, or a
    descriptor. -/
inductive Control where
  | none
  | other
  | rights (fd : Nat)
deriving DecidableEq, Repr

/-- What `dsu_recvmsg` returns and leaves: the number of bytes, 0 or -1; the control data; and `nport` in host
    order, of which a short message has filled a part. -/
structure Received where
  n : Int
  control : Control
  nport : Int
deriving DecidableEq, Repr

/-- `sizeof(nport)`. -/
def nbytes : Int := 4

/-- `dsu_read_fd`: its result, and the values of `*recvfd` and `*port` afterwards. -/
def Received.dsuReadFd (m : Received) (recvfd port : Int) : Int × Int × Int :=
  if m.n ≤ 0 then (m.n, recvfd, port)
  else match m.control with
    | .none => (m.n, -1, m.nport)
    | .other => (-1, -1, port)
    | .rights fd => (m.n, fd, m.nport)

/-- The results of `connect`, `dsu_send` and the two `dsu_recvmsg`. -/
structure Exchange where
  connect : Int
  send : Int
  first : Received
  second : Received
deriving DecidableEq, Repr

namespace Exchange

def Made (x : Exchange) : Prop := x.connect ≠ -1 ∧ 0 < x.send

instance (x : Exchange) : Decidable x.Made := inferInstanceAs (Decidable (_ ∧ _))

/-- `dsu_inherit_fd`: its result, the record afterwards, and what it has closed. -/
def dsuInheritFd (x : Exchange) (s : DsuSocket) : Int × DsuSocket × List Int :=
  if x.Made then
    let (_, shadowfd, port) := x.first.dsuReadFd s.shadowfd 0
    let (_, comfd, port) := x.second.dsuReadFd 0 port
    (port, { s with shadowfd := shadowfd, comfd := comfd }, [s.comfd])
  else (-1, s, [])

end Exchange

end OpenDSU
