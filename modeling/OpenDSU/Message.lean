import OpenDSU.Exchange
import OpenDSU.Kernel

/-! `communication.c`: the bytes of the message by which one version gives a descriptor to another, with
`HAVE_MSGHDR_MSG_CONTROL` as `core.h` defines it. The host is taken to be little-endian. -/

namespace OpenDSU

abbrev Byte := BitVec 8

/-- An `int`, or an `int32_t`. -/
abbrev CInt := BitVec 32

namespace CInt

/-- The bytes of an `int` in memory. -/
def bytes (x : CInt) : List Byte := [x.extractLsb' 0 8, x.extractLsb' 8 8, x.extractLsb' 16 8, x.extractLsb' 24 8]

def ofBytes (l : List Byte) : CInt := l.getD 3 0 ++ l.getD 2 0 ++ l.getD 1 0 ++ l.getD 0 0

/-- `htonl` and `ntohl`. -/
def htonl (x : CInt) : CInt := ofBytes x.bytes.reverse

end CInt

/-- `SOL_SOCKET`. -/
def solSocket : CInt := 1

/-- `SCM_RIGHTS`. -/
def scmRights : CInt := 1

/-- `CMSG_LEN`, of which the header takes 16 bytes. -/
def cmsgLen (n : Nat) : Nat := 16 + n

/-- The control message in `control_un`, which has room for one: 8 bytes are left behind its header. -/
structure Cmsg where
  level : CInt
  type : CInt
  data : List Byte
  room : data.length ≤ 8
deriving DecidableEq

/-- `cmsg_len`. -/
def Cmsg.len (c : Cmsg) : Nat := cmsgLen c.data.length

/-- What a call of `dsu_recvmsg` has put into `nport` and `control_un`. -/
structure Message where
  payload : List Byte
  control : Option Cmsg
  room : payload.length ≤ 4
deriving DecidableEq

/-- The control data of `dsu_write_fd`. -/
def rightsCmsg (fd : CInt) : Cmsg where
  level := solSocket
  type := scmRights
  data := fd.bytes
  room := by simp [CInt.bytes]

/-- `dsu_write_fd`, when `dsu_getsockopt` accepts the descriptor: the message that it sends. -/
def dsuWriteFdMessage (accepted : Bool) (sendfd port : CInt) : Option Message :=
  if accepted then
    some { payload := port.htonl.bytes, control := some (rightsCmsg sendfd), room := by simp [CInt.bytes] }
  else none

/-- `dsu_read_fd` with what `dsu_recvmsg` left, none where it failed: the result, `*recvfd` and `*port`.
    `stack`: the bytes that stood in `nport` before. -/
def dsuReadFdMessage (stack : List Byte) (received : Option Message) (recvfd port : CInt) : Int × CInt × CInt :=
  match received with
  | none => (-1, recvfd, port)
  | some msg =>
    let n : Int := msg.payload.length
    let nport := CInt.ofBytes (msg.payload ++ stack.drop msg.payload.length)
    if n ≤ 0 then (n, recvfd, port)
    else match msg.control with
      | some cmptr =>
        if cmptr.len = cmsgLen 4 then
          if cmptr.level ≠ solSocket then (-1, -1, port)
          else if cmptr.type ≠ scmRights then (-1, -1, port)
          else (n, CInt.ofBytes cmptr.data, nport.htonl)
        else (n, -1, nport.htonl)
      | none => (n, -1, nport.htonl)

/-- The kernel hands a message on: a descriptor in it is opened for the receiver, under a number that was free,
    on the file that it stands for at the sender. -/
structure Message.Passed (sender receiver after : Int → Option File) (sent got : Message) : Prop where
  payload : got.payload = sent.payload
  control : ∀ fd, sent.control = some (rightsCmsg fd) → ∃ n : CInt,
    got.control = some (rightsCmsg n) ∧ 0 ≤ n.toInt ∧ receiver n.toInt = none ∧
    after = fun d => if d = n.toInt then sender fd.toInt else receiver d

/-- Exactly one descriptor came with the message. -/
def Message.OneDescriptor (msg : Message) : Prop :=
  ∃ c, msg.control = some c ∧ c.level = solSocket ∧ c.type = scmRights ∧ c.data.length = 4

/-- Control data of the size of a descriptor, of another level or type. -/
def Message.Foreign (msg : Message) : Prop :=
  ∃ c, msg.control = some c ∧ c.data.length = 4 ∧ ¬(c.level = solSocket ∧ c.type = scmRights)

end OpenDSU
