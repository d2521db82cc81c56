import OpenDSU.Exchange
import OpenDSU.Semaphore

/-! The sockets that the programs of all processes make with `socket` and give to `bind`, on addresses of any
family: the names that `bind` derives from an address, and the socket its record ends with.

Descriptors of one socket in several processes are one number here, the place of the socket in `Net`. -/

namespace OpenDSU

/-- What a program gives to `bind`, by its family: port and local address, the bytes of `sun_path`, or what
    follows `sa_family`. -/
inductive SockAddr where
  | inet (port : BitVec 16) (addr : BitVec 32)
  | inet6 (port : BitVec 16) (addr : BitVec 128) (scope : BitVec 32)
  | unix (path : List (BitVec 8))
  | other (family : Nat) (data : List (BitVec 8))
deriving DecidableEq, Repr

namespace SockAddr

/-- `ntohs(addr_t->sin_port)`: two bytes at one offset in every family, taken to be 0 past the end. -/
def sinPort : SockAddr → BitVec 16
  | .inet port _ => port
  | .inet6 port _ _ => port
  | .unix path => path.getD 0 0 ++ path.getD 1 0
  | .other _ data => data.getD 0 0 ++ data.getD 1 0

/-- `dsu_socketfd->port`. -/
def port (a : SockAddr) : Nat := a.sinPort.toNat

/-- `sprintf(sun_path, "X%s_%d.unix", DSU_COMM, port)` with `sun_path[0] = '\0'`: the abstract name. -/
def comfdPath (a : SockAddr) : String := "\x00" ++ dsuComm ++ "_" ++ toString a.port ++ ".unix"

/-- `sprintf(pathname, "/%s_%d", DSU_COMM, port)`: the name of the shared memory. -/
def shmPathname (a : SockAddr) : String := "/" ++ dsuComm ++ "_" ++ toString a.port

/-- The addresses that `dsu_bind` may bind a socket to: the one it is given, where the kernel has nothing to
    choose. -/
def grants : SockAddr → SockAddr → Bool
  | .inet port addr, .inet port' addr' => addr' == addr && (if port = 0 then port' != 0 else port' == port)
  | .inet6 port addr scope, .inet6 port' addr' scope' =>
    addr' == addr && scope' == scope && (if port = 0 then port' != 0 else port' == port)
  | .unix path, .unix path' => if path = [] then path' != [] else path' == path
  | .other family _, .other family' _ => family' == family
  | _, _ => false

end SockAddr

/-- What `dsu_read_fd` gets of a message that was sent with a descriptor: nothing, the port alone, or both. -/
inductive Arrival where
  | lost
  | bare
  | full
deriving DecidableEq, Repr

namespace Arrival
variable {α : Type}

def received (fd port : Nat) : Arrival → Received
  | .lost => { n := 0, control := .none, nport := 0 }
  | .bare => { n := nbytes, control := .none, nport := port }
  | .full => { n := nbytes, control := .rights fd, nport := port }

/-- What it leaves in `*recvfd`, from what stood there, what -1 is, and what was sent. -/
def recvfd (old none sent : α) : Arrival → α
  | .lost => old
  | .bare => none
  | .full => sent

/-- What `dsu_inherit_fd` returns after both messages. -/
def returned (port : Nat) : Arrival → Arrival → Nat
  | .lost, .lost => 0
  | _, _ => port

end Arrival

/-- `dsu_inherit_fd` on messages with the descriptors `shadowfd` and `comfd`. -/
theorem dsuInheritFd_received {x : Exchange} {shadowfd comfd port : Nat} {first second : Arrival} (hmade : x.Made)
    (hfirst : x.first = first.received shadowfd port) (hsecond : x.second = second.received comfd port)
    (s : DsuSocket) :
    x.dsuInheritFd s = (((first.returned port second : Nat) : Int),
      { s with
        shadowfd := first.recvfd s.shadowfd (-1) shadowfd
        comfd := second.recvfd 0 (-1) comfd },
      [s.comfd]) := by
  unfold Exchange.dsuInheritFd
  rw [if_pos hmade, hfirst, hsecond]
  cases first <;> cases second <;> rfl

/-- The record of a socket in `binds`. `shadow`: the socket of a program that `shadowfd` is a descriptor of;
    `named`: `comfd` is a descriptor of the socket that listens on the abstract name; `inherited`: `bind` took
    the branch of an inheriting version. -/
structure NetRec where
  addr : SockAddr
  shadow : Option Nat
  named : Bool
  inherited : Bool
deriving DecidableEq, Repr

/-- Where the record of a socket is: in `sockets`, there with its `bind` in `dsu_inherit_fd`, or in `binds`. -/
inductive NetStage where
  | made
  | asking (addr : SockAddr)
  | entered (r : NetRec)
deriving DecidableEq, Repr

/-- A socket that the program of process `pid` has made. `bound`: the local address the kernel has given it. -/
structure NetSock where
  pid : Nat
  bound : Option SockAddr
  stage : NetStage
deriving DecidableEq, Repr

namespace NetSock

/-- The address that `bind` was called with on the socket. -/
def call (x : NetSock) : Option SockAddr :=
  match x.stage with
  | .made => none
  | .asking addr => some addr
  | .entered r => some r.addr

def entry (x : NetSock) : Option NetRec :=
  match x.stage with
  | .entered r => some r
  | _ => none

/-- The address whose abstract name `dsu_inherit_fd` has connected to. -/
def asks (x : NetSock) : Option SockAddr :=
  match x.stage with
  | .asking addr => some addr
  | _ => none

/-- The process of the socket has a descriptor that listens on the abstract name of the address. -/
def serves (x : NetSock) (addr : SockAddr) : Bool :=
  x.entry.any fun r => r.named && r.addr.comfdPath == addr.comfdPath

end NetSock

structure Net where
  socks : List NetSock
deriving DecidableEq, Repr

/-- One step of one process; `k` is the place of the socket that `bind` is called on. Up to the return of
    `bind` the process answers nobody. -/
inductive NetAct where
  | socket (pid : Nat)
  /-- `dsu_monitor_init` succeeds; the kernel binds the socket to `got`, or to nothing. -/
  | bindFirst (k : Nat) (addr : SockAddr) (got : Option SockAddr)
  /-- `dsu_monitor_init` fails for another reason than the name, or `dsu_inherit_fd` does not get to its
      request. -/
  | bindAlone (k : Nat) (addr : SockAddr) (got : Option SockAddr)
  /-- `dsu_monitor_init` is refused, `dsu_inherit_fd` connects and sends its request. -/
  | request (k : Nat) (addr : SockAddr)
  /-- The process of socket `i` answers, and `bind` goes on with what arrives of both messages. -/
  | answer (k i : Nat) (first second : Arrival) (got : Option SockAddr)
deriving DecidableEq, Repr

namespace Net

/-- A socket is bound to the address. -/
def Bound (s : Net) (addr : SockAddr) : Prop := ∃ x ∈ s.socks, x.bound = some addr

/-- `shadow` is a socket that is bound to the address. -/
def BoundAt (s : Net) (shadow : Option Nat) (addr : SockAddr) : Prop :=
  ∃ n ∈ shadow, ∃ x ∈ s.socks[n]?, x.bound = some addr

/-- The process is in `dsu_inherit_fd`. -/
def waits (s : Net) (pid : Nat) : Bool := s.socks.any fun x => x.pid == pid && x.asks.isSome

def nameHeld (s : Net) (addr : SockAddr) : Bool := s.socks.any (·.serves addr)

/-- The record of socket `k` moves to `binds`. -/
def enter (s : Net) (k : Nat) (x : NetSock) (r : NetRec) (got : Option SockAddr) : Net where
  socks := s.socks.set k { x with bound := got, stage := .entered r }

/-- The rest of `bind` where nothing is inherited. -/
def enterFirst (s : Net) (k : Nat) (x : NetSock) (addr : SockAddr) (shadow : Option Nat) (named : Bool)
    (got : Option SockAddr) : Option Net :=
  if got.all addr.grants then
    some (s.enter k x { addr := addr, shadow := shadow, named := named, inherited := false } got)
  else none

def step (s : Net) : NetAct → Option Net
  | .socket pid =>
    if s.waits pid then none
    else some { socks := s.socks ++ [{ pid := pid, bound := none, stage := .made }] }
  | .bindFirst k addr got =>
    match s.socks[k]? with
    | some x =>
      -- Any other socket is not found in `sockets`, and `bind` fails with `EBADF`.
      if x.stage = .made && !s.waits x.pid && !s.nameHeld addr then s.enterFirst k x addr (some k) true got
      else none
    | none => none
  | .bindAlone k addr got =>
    match s.socks[k]? with
    | some x =>
      if x.stage = .made && !s.waits x.pid then s.enterFirst k x addr (some k) false got else none
    | none => none
  | .request k addr =>
    match s.socks[k]? with
    | some x =>
      if x.stage = .made && !s.waits x.pid && s.nameHeld addr then
        some { socks := s.socks.set k { x with stage := .asking addr } }
      else none
    | none => none
  | .answer k i first second got =>
    match s.socks[k]?, s.socks[i]? with
    | some x, some y =>
      match x.stage, y.stage with
      | .asking addr, .entered r =>
        -- Where `shadowfd` is not a socket, the message with `comfd` is the only one.
        if y.serves addr && !s.waits y.pid && (r.shadow.isSome || second = .lost) then
          let shadow := first.recvfd (some k) none r.shadow
          let named := second.recvfd false false true
          if 0 < first.returned addr.port second then
            some (s.enter k x { addr := addr, shadow := shadow, named := named, inherited := true } x.bound)
          else s.enterFirst k x addr shadow named got
        else none
      | _, _ => none
    | _, _ => none

end Net

/-- All processes, from the moment that none has made a socket. -/
def netMachine : Machine Net NetAct where
  init s := s.socks = []
  step := Net.step

end OpenDSU
