import OpenDSU.Ledger

/-! The wrappers of `core.c` and `utils.c` that do no more than pass a call on, and what they are to come to: the open file
that a descriptor means to the program, by the calls that it has made itself. -/

namespace OpenDSU

/-- A system call on a descriptor with its other arguments; a pointer is a `δ`. -/
inductive Io (δ : Type) where
  | read (buf : δ) (count : Nat)
  | recv (buf : δ) (len : Nat) (flags : Int)
  | recvfrom (buf : δ) (len : Nat) (flags : Int) (srcAddr addrlen : δ)
  | recvmsg (msg : δ) (flags : Int)
  | write (buf : δ) (count : Nat)
  | send (buf : δ) (len : Nat) (flags : Int)
  | sendto (buf : δ) (len : Nat) (flags : Int) (destAddr : δ) (addrlen : Nat)
  | sendmsg (msg : δ) (flags : Int)
  | listen (backlog : Int)
  | shutdown (how : Int)
  | getsockopt (level optname : Int) (optval optlen : δ)
  | setsockopt (level optname : Int) (optval : δ) (optlen : Nat)
  | getsockname (addr addrlen : δ)
  | getpeername (addr addrlen : δ)
  | fcntl (cmd : Int) (argp : δ)
  | ioctl (request : Nat) (argp : δ)

/-- The library's pointers to the system calls: what a call on a descriptor does, in any way as a function of the world. -/
abbrev Syscalls (δ β : Type) := Io δ → World → Int → β

section Wrappers
variable {δ β : Type} (dsu : Syscalls δ β) (p : Proc)

/-- A system call on the shadow descriptor. -/
def passOn (fd : Int) (io : Io δ) : β := dsu io p.world (dsuShadowfd p.binds fd)

def read (fd : Int) (buf : δ) (count : Nat) : β := passOn dsu p fd (.read buf count)

def recv (sockfd : Int) (buf : δ) (len : Nat) (flags : Int) : β := passOn dsu p sockfd (.recv buf len flags)

def recvfrom (sockfd : Int) (buf : δ) (len : Nat) (flags : Int) (srcAddr addrlen : δ) : β :=
  passOn dsu p sockfd (.recvfrom buf len flags srcAddr addrlen)

def recvmsg (sockfd : Int) (msg : δ) (flags : Int) : β := passOn dsu p sockfd (.recvmsg msg flags)

def write (fd : Int) (buf : δ) (count : Nat) : β := passOn dsu p fd (.write buf count)

def send (sockfd : Int) (buf : δ) (len : Nat) (flags : Int) : β := passOn dsu p sockfd (.send buf len flags)

def sendto (sockfd : Int) (buf : δ) (len : Nat) (flags : Int) (destAddr : δ) (addrlen : Nat) : β :=
  passOn dsu p sockfd (.sendto buf len flags destAddr addrlen)

def sendmsg (sockfd : Int) (msg : δ) (flags : Int) : β := passOn dsu p sockfd (.sendmsg msg flags)

def listen (sockfd backlog : Int) : β := passOn dsu p sockfd (.listen backlog)

def shutdown (sockfd how : Int) : β := passOn dsu p sockfd (.shutdown how)

def getsockopt (sockfd level optname : Int) (optval optlen : δ) : β :=
  passOn dsu p sockfd (.getsockopt level optname optval optlen)

def setsockopt (sockfd level optname : Int) (optval : δ) (optlen : Nat) : β :=
  passOn dsu p sockfd (.setsockopt level optname optval optlen)

def getsockname (sockfd : Int) (addr addrlen : δ) : β := passOn dsu p sockfd (.getsockname addr addrlen)

def getpeername (sockfd : Int) (addr addrlen : δ) : β := passOn dsu p sockfd (.getpeername addr addrlen)

def fcntl (fd cmd : Int) (argp : δ) : β := passOn dsu p fd (.fcntl cmd argp)

def ioctl (fd : Int) (request : Nat) (argp : δ) : β := passOn dsu p fd (.ioctl request argp)

/-- The wrapper of a system call. -/
def Io.wrapper (fd : Int) : Io δ → β
  | .read buf count => OpenDSU.read dsu p fd buf count
  | .recv buf len flags => OpenDSU.recv dsu p fd buf len flags
  | .recvfrom buf len flags srcAddr addrlen => OpenDSU.recvfrom dsu p fd buf len flags srcAddr addrlen
  | .recvmsg msg flags => OpenDSU.recvmsg dsu p fd msg flags
  | .write buf count => OpenDSU.write dsu p fd buf count
  | .send buf len flags => OpenDSU.send dsu p fd buf len flags
  | .sendto buf len flags destAddr addrlen => OpenDSU.sendto dsu p fd buf len flags destAddr addrlen
  | .sendmsg msg flags => OpenDSU.sendmsg dsu p fd msg flags
  | .listen backlog => OpenDSU.listen dsu p fd backlog
  | .shutdown how => OpenDSU.shutdown dsu p fd how
  | .getsockopt level optname optval optlen => OpenDSU.getsockopt dsu p fd level optname optval optlen
  | .setsockopt level optname optval optlen => OpenDSU.setsockopt dsu p fd level optname optval optlen
  | .getsockname addr addrlen => OpenDSU.getsockname dsu p fd addr addrlen
  | .getpeername addr addrlen => OpenDSU.getpeername dsu p fd addr addrlen
  | .fcntl cmd argp => OpenDSU.fcntl dsu p fd cmd argp
  | .ioctl request argp => OpenDSU.ioctl dsu p fd request argp

end Wrappers

/-- System calls that act on the open file of a descriptor, whatever its number. -/
def onFile {δ β : Type} (f : Io δ → Option File → β) : Syscalls δ β := fun io w fd => f io (w.fdt fd)

/-! ### What the program means -/

/-- The listening socket that another version hands over to `bind`, in the first message. -/
def inherited (K : Kernel) (p : Proc) (sockfd : Int) (port : Nat) : Option File :=
  let (comfd, w) := p.world.allot K .com
  if (dsuSocketsSearchFd p.sockets sockfd).isSome ∧ K.bindName w port = .inUse ∧
      (w.tick.isOpen comfd && K.connect w.tick comfd) = true then
    match w.tick.tick.recvmsg K comfd .shadow with
    | (.full fd _, w) => w.fdt fd
    | _ => none
  else none

/-- The open file that the program has each of its descriptors for. -/
abbrev Meaning := Int → Option File

/-- A descriptor means the file that it was opened for, until it is closed; a socket that is bound where another version is
    listening means the socket of that version. -/
def Meaning.after (K : Kernel) (m : Meaning) (p : Proc) : Call → Meaning
  | .socket =>
    let (sockfd, q) := OpenDSU.socket K p
    if sockfd = -1 then m else Function.update m sockfd (q.world.fdt sockfd)
  | .bind sockfd port =>
    match inherited K p sockfd port with
    | some file => Function.update m sockfd (some file)
    | none => m
  | .accept sockfd =>
    let (sessionfd, q) := OpenDSU.accept K p sockfd
    if sessionfd = -1 then m else Function.update m sessionfd (q.world.fdt sessionfd)
  | .close sockfd => Function.update m sockfd none
  | .epollCtl .. | .select .. | .ppoll .. | .epollWait .. => m

/-- A process with the descriptors that its program has, and what they mean. -/
structure Meant where
  held : Possession
  means : Meaning

def Meant.step (K : Kernel) (a : Meant) (call : Call) : Option Meant :=
  (a.held.step K call).map fun b => { held := b, means := a.means.after K a.held.proc call }

def meantMachine (K : Kernel) : Machine Meant Call where
  init a := (possessionMachine K).init a.held ∧ a.means = fun _ => none
  step := Meant.step K

end OpenDSU
