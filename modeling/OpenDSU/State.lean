import Mathlib.Data.Int.Notation

/-! `state.h` and `state.c`: the shadow record of a socket, the two lists of records, and the searches by
which every wrapper translates descriptors. -/

namespace OpenDSU

/-- `epoll_data_t`: 64 bits that the program chooses. `fd` is the low word read as a descriptor, `hi` the
    high word. -/
structure EpollData where
  fd : Int
  hi : Nat
deriving DecidableEq, Repr

/-- `struct epoll_event`. -/
structure EpollEvent where
  events : Nat
  data : EpollData
deriving DecidableEq, Repr

/-- One node of `struct dsu_socket_list`. `comfd_addr` is a function of `port`, and `status` is the shared
    memory of `port`, so neither is a field. A semaphore is the number of its object, 0 the null pointer. -/
structure DsuSocket where
  fd : Int
  fds : List Int
  shadowfd : Int
  port : Nat
  ev : EpollEvent
  comfds : List Int
  comfd : Int
  monitoring : Bool
  version : Int
  locked : Bool
  transfer : Bool
  blocking : Bool
  statusSem : Nat
  fdSem : Nat
deriving DecidableEq, Repr

/-- `dsu_socket_list_init`. `version` is not initialised by the source; it is written by `bind` before the
    record is read. -/
def dsuSocketListInit : DsuSocket where
  fd := -1
  fds := []
  shadowfd := -1
  port := 0
  ev := { events := 0, data := { fd := 0, hi := 0 } }
  comfds := []
  comfd := -1
  monitoring := false
  version := 0
  locked := false
  transfer := false
  blocking := false
  statusSem := 0
  fdSem := 0

/-- The flag argument of the functions on `fds`, `comfds` and `comfd`. -/
inductive FdFlag where
  | nonInternal
  | internal
  | monitor
deriving DecidableEq, Repr

/-- `dsu_sockets_add` appends at the end of the list. -/
def dsuSocketsAdd (head : List DsuSocket) (newNode : DsuSocket) : List DsuSocket := head ++ [newNode]

/-- `dsu_sockets_remove_fd` removes the first record of the descriptor. -/
def dsuSocketsRemoveFd (head : List DsuSocket) (sockfd : Int) : List DsuSocket :=
  head.eraseP (·.fd == sockfd)

/-- `dsu_sockets_transfer_fd`: the destination and the source list afterwards. -/
def dsuSocketsTransferFd (dest src : List DsuSocket) (s : DsuSocket) : List DsuSocket × List DsuSocket :=
  (dsuSocketsAdd dest s, dsuSocketsRemoveFd src s.fd)

def dsuSocketsSearchFd (head : List DsuSocket) (sockfd : Int) : Option DsuSocket :=
  head.find? (·.fd == sockfd)

def dsuSocketsSearchShadowfd (head : List DsuSocket) (sockfd : Int) : Option DsuSocket :=
  head.find? (·.shadowfd == sockfd)

/-- `dsu_socket_add_fds`: every flag but `DSU_INTERNAL_FD` means the list of clients. -/
def dsuSocketAddFds (node : DsuSocket) (comfd : Int) (flag : FdFlag) : DsuSocket :=
  match flag with
  | .internal => { node with comfds := node.comfds ++ [comfd] }
  | _ => { node with fds := node.fds ++ [comfd] }

/-- `dsu_socket_remove_fds` removes the first node of the descriptor. -/
def dsuSocketRemoveFds (node : DsuSocket) (comfd : Int) (flag : FdFlag) : DsuSocket :=
  match flag with
  | .internal => { node with comfds := node.comfds.erase comfd }
  | _ => { node with fds := node.fds.erase comfd }

/-- The test that `dsu_sockets_search_fds` makes of one record. -/
def DsuSocket.listens (node : DsuSocket) (sockfd : Int) : FdFlag → Bool
  | .nonInternal => node.fds.contains sockfd
  | .monitor => node.comfd == sockfd && node.monitoring
  | .internal => node.comfds.contains sockfd

def dsuSocketsSearchFds (head : List DsuSocket) (sockfd : Int) (flag : FdFlag) : Option DsuSocket :=
  head.find? (·.listens sockfd flag)

/-- A write through the pointer that a search returned: to the first record that passes its test. -/
def dsuSocketsUpdate (test : DsuSocket → Bool) (f : DsuSocket → DsuSocket) : List DsuSocket → List DsuSocket
  | [] => []
  | s :: rest => if test s then f s :: rest else s :: dsuSocketsUpdate test f rest

/-- `dsu_shadowfd`: a bound socket is known to the kernel under its shadow descriptor. -/
def dsuShadowfd (binds : List DsuSocket) (fd : Int) : Int :=
  match dsuSocketsSearchFd binds fd with
  | some s => s.shadowfd
  | none => fd

/-- `dsu_originalfd`: the way back. -/
def dsuOriginalfd (binds : List DsuSocket) (shadowfd : Int) : Int :=
  match dsuSocketsSearchShadowfd binds shadowfd with
  | some s => s.fd
  | none => shadowfd

def dsuIsInternalConn (binds : List DsuSocket) (fd : Int) : Bool :=
  (dsuSocketsSearchFds binds fd .monitor).isSome || (dsuSocketsSearchFds binds fd .internal).isSome

end OpenDSU
