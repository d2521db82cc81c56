import OpenDSU.State
import OpenDSU.Lib.Linked
import Mathlib.Logic.Function.Basic

/-! `state.c` in memory: the nodes that `malloc` hands out, and the loops that follow the pointers between them.

An operation is `none` where the source would touch memory that is not allocated. -/

namespace OpenDSU

/-- `struct dsu_socket_list` but for `next`; `fds` and `comfds` are addresses of a `struct dsu_fd_list`. -/
structure SocketNode where
  fd : Int
  fds : Nat
  shadowfd : Int
  port : Nat
  ev : EpollEvent
  comfds : Nat
  comfd : Int
  monitoring : Bool
  version : Int
  locked : Bool
  transfer : Bool
  blocking : Bool
  statusSem : Nat
  fdSem : Nat
deriving DecidableEq, Repr

/-- The record that a node stands for, with these lists behind its two pointers. -/
def SocketNode.record (n : SocketNode) (fds comfds : List Int) : DsuSocket where
  fd := n.fd
  fds := fds
  shadowfd := n.shadowfd
  port := n.port
  ev := n.ev
  comfds := comfds
  comfd := n.comfd
  monitoring := n.monitoring
  version := n.version
  locked := n.locked
  transfer := n.transfer
  blocking := n.blocking
  statusSem := n.statusSem
  fdSem := n.fdSem

/-- The node with the fields of a record but for its lists. -/
def SocketNode.put (n : SocketNode) (r : DsuSocket) : SocketNode where
  fd := r.fd
  fds := n.fds
  shadowfd := r.shadowfd
  port := r.port
  ev := r.ev
  comfds := n.comfds
  comfd := r.comfd
  monitoring := r.monitoring
  version := r.version
  locked := r.locked
  transfer := r.transfer
  blocking := r.blocking
  statusSem := r.statusSem
  fdSem := r.fdSem

/-- The node of a record whose lists are empty. -/
def SocketNode.bare (r : DsuSocket) : SocketNode where
  fd := r.fd
  fds := 0
  shadowfd := r.shadowfd
  port := r.port
  ev := r.ev
  comfds := 0
  comfd := r.comfd
  monitoring := r.monitoring
  version := r.version
  locked := r.locked
  transfer := r.transfer
  blocking := r.blocking
  statusSem := r.statusSem
  fdSem := r.fdSem

/-- The pointer that a flag names. -/
def SocketNode.fdHead (n : SocketNode) : FdFlag → Nat
  | .internal => n.comfds
  | _ => n.fds

def SocketNode.setFdHead (n : SocketNode) (p : Nat) : FdFlag → SocketNode
  | .internal => { n with comfds := p }
  | _ => { n with fds := p }

/-- `dsu_program_state.sockets` and `dsu_program_state.binds`, and the nodes in memory. Nothing is allocated from
    `top` on. -/
structure Memory where
  sockets : Nat
  binds : Nat
  nodes : Heap SocketNode
  fdNodes : Heap Int
  top : Nat

/-- The variable that the argument `head` points to. -/
inductive ListVar where
  | sockets
  | binds
deriving DecidableEq, Repr

namespace Memory

/-- `dsu_init`. -/
def start : Memory where
  sockets := 0
  binds := 0
  nodes := fun _ => none
  fdNodes := fun _ => none
  top := 1

/-- `malloc` gives any address that is free: the proposed one, or the one at the end where that is in use. -/
def malloc (pick : Memory → Nat) (m : Memory) : Nat × Memory :=
  let a := if pick m ≠ 0 ∧ m.nodes (pick m) = none ∧ m.fdNodes (pick m) = none then pick m else m.top
  (a, { m with top := max m.top (a + 1) })

def list (m : Memory) : ListVar → Linked SocketNode
  | .sockets => { head := m.sockets, heap := m.nodes }
  | .binds => { head := m.binds, heap := m.nodes }

def store (m : Memory) (s : Linked SocketNode) : ListVar → Memory
  | .sockets => { m with sockets := s.head, nodes := s.heap }
  | .binds => { m with binds := s.head, nodes := s.heap }

/-- A list of descriptors of the record at `p`. -/
def fdList (m : Memory) (p : Nat) (flag : FdFlag) : Option (Linked Int) :=
  (m.nodes p).map fun c => { head := c.val.fdHead flag, heap := m.fdNodes }

def storeFds (m : Memory) (p : Nat) (flag : FdFlag) (s : Linked Int) : Option Memory :=
  (m.nodes p).map fun c =>
    { m with
      nodes := Function.update m.nodes p (some { c with val := c.val.setFdHead s.head flag })
      fdNodes := s.heap }

/-- Write fields of the record at `p`, but not its lists. -/
def write (m : Memory) (p : Nat) (r : DsuSocket) : Option Memory :=
  (m.nodes p).map fun c => { m with nodes := Function.update m.nodes p (some { c with val := c.val.put r }) }

/-! ### `state.c` -/

variable (pick : Memory → Nat)

def dsuSocketsAdd (m : Memory) (head : ListVar) (newNode : SocketNode) : Option Memory :=
  let (a, m) := m.malloc pick
  ((m.list head).append m.top a newNode).map (m.store · head)

def dsuSocketsRemoveFd (m : Memory) (head : ListVar) (sockfd : Int) : Option Memory :=
  ((m.list head).remove (·.fd == sockfd) m.top).map (m.store · head)

/-- `dsu_sockets_transfer_fd`, of the record at `p`. -/
def dsuSocketsTransferFd (m : Memory) (dest src : ListVar) (p : Nat) : Option Memory :=
  (m.nodes p).bind fun c =>
    (m.dsuSocketsAdd pick dest c.val).bind fun m =>
      (m.nodes p).bind fun c => m.dsuSocketsRemoveFd src c.val.fd

def dsuSocketsSearchFd (m : Memory) (head : Nat) (sockfd : Int) : Option Nat :=
  Linked.search (fun n => some (n.fd == sockfd)) m.nodes m.top head

def dsuSocketsSearchShadowfd (m : Memory) (head : Nat) (sockfd : Int) : Option Nat :=
  Linked.search (fun n => some (n.shadowfd == sockfd)) m.nodes m.top head

def dsuSocketAddFds (m : Memory) (p : Nat) (comfd : Int) (flag : FdFlag) : Option Memory :=
  let (a, m) := m.malloc pick
  (m.fdList p flag).bind fun s => (s.append m.top a comfd).bind (m.storeFds p flag)

def dsuSocketRemoveFds (m : Memory) (p : Nat) (comfd : Int) (flag : FdFlag) : Option Memory :=
  (m.fdList p flag).bind fun s => (s.remove (· == comfd) m.top).bind (m.storeFds p flag)

/-- The inner loops of `dsu_sockets_search_fds`. -/
def listens (m : Memory) (n : SocketNode) (sockfd : Int) : FdFlag → Option Bool
  | .monitor => some (n.comfd == sockfd && n.monitoring)
  | flag => (Linked.search (fun fd => some (fd == sockfd)) m.fdNodes m.top (n.fdHead flag)).map (· != 0)

def dsuSocketsSearchFds (m : Memory) (head : Nat) (sockfd : Int) (flag : FdFlag) : Option Nat :=
  Linked.search (m.listens · sockfd flag) m.nodes m.top head

def dsuShadowfd (m : Memory) (fd : Int) : Option Int :=
  (m.dsuSocketsSearchFd m.binds fd).bind fun p => if p = 0 then some fd else (m.nodes p).map (·.val.shadowfd)

def dsuOriginalfd (m : Memory) (shadowfd : Int) : Option Int :=
  (m.dsuSocketsSearchShadowfd m.binds shadowfd).bind fun p =>
    if p = 0 then some shadowfd else (m.nodes p).map (·.val.fd)

def dsuIsInternalConn (m : Memory) (fd : Int) : Option Bool :=
  (m.dsuSocketsSearchFds m.binds fd .monitor).bind fun p =>
    if p ≠ 0 then some true else (m.dsuSocketsSearchFds m.binds fd .internal).map (· != 0)

end Memory
end OpenDSU
