import OpenDSU.Process

/-! A bound socket whose process serves other versions: what each system call of an event call does to the
record, and what the program and the other records may do in between. -/

namespace OpenDSU

/-- `shadowFile` and `comFile` are not in the source: the listening socket of the record, and the socket under
    which other versions reach it, as files, where `bind` got them. -/
structure Server where
  pgid : Int
  sock : DsuSocket
  world : World
  shadowFile : Option Nat
  comFile : Option Nat

inductive ServeAct where
  /-- A handler finds `comfd` ready. -/
  | accept
  /-- A handler finds a connection of `comfds` ready. -/
  | answer (c : Int)
  /-- `dsu_monitor_fd`, at the start of an event call. -/
  | monitor
  /-- The program closes `comfd`. -/
  | closeCom
  /-- The program closes a connection of `comfds`. -/
  | closeConn (c : Int)
  /-- The program or another record opens a descriptor. -/
  | opens (fd : Int) (kind : Kind)
  /-- They close one that is none of the record. -/
  | closes (fd : Int)
  /-- Everything else, by the process or by others: `w` says how it leaves the kernel's side but for the
      descriptors, and `r` the record but for what serving depends on. -/
  | turn (r : DsuSocket) (w : World)

/-- The descriptor is one of the file. -/
def World.holds (w : World) (fd : Int) (id : Nat) : Prop := (w.fdt fd).map File.id = some id

instance (w : World) (fd : Int) (id : Nat) : Decidable (w.holds fd id) :=
  inferInstanceAs (Decidable (_ = _))

namespace Server

/-- The descriptor serves the record. -/
def owns (s : Server) (fd : Int) : Bool :=
  fd == s.sock.shadowfd || s.sock.comfds.contains fd || (s.sock.monitoring && fd == s.sock.comfd)

def step (K : Kernel) (s : Server) : ServeAct → Option Server
  | .accept =>
    let (sock, w) := acceptConn K s.sock s.world
    some { s with sock := sock, world := w }
  | .answer c =>
    if s.sock.comfds.contains c then
      let (_, sock, w) := answerConn K c s.sock s.world
      some { s with sock := sock, world := w }
    else none
  | .monitor =>
    let (sock, w) := dsuMonitorFd K s.pgid s.sock s.world
    some { s with sock := sock, world := w }
  | .closeCom =>
    if s.sock.monitoring then
      some { s with sock := { s.sock with monitoring := false }, world := s.world.close K s.sock.comfd }
    else none
  | .closeConn c =>
    if s.sock.comfds.contains c then
      some { s with sock := dsuSocketRemoveFds s.sock c .internal, world := s.world.close K c }
    else none
  | .opens fd kind =>
    if 0 ≤ fd && !s.world.isOpen fd then some { s with world := s.world.install fd kind } else none
  | .closes fd => if s.owns fd then none else some { s with world := s.world.close K fd }
  | .turn r w =>
    some { s with
      sock := { s.sock with fds := r.fds, ev := r.ev, locked := r.locked, blocking := r.blocking }
      world := { w with fdt := s.world.fdt, files := s.world.files } }

/-- The record as `bind` leaves it: `dsu_read_fd` may have left a `shadowfd` or `comfd` that it did not
    receive. -/
def ofBind (pgid : Int) (r : DsuSocket) (w : World) : Server where
  pgid := pgid
  sock := r
  world := w
  shadowFile := ((w.fdt r.shadowfd).filter fun file => file.kind = .user ∨ file.kind = .shadow).map File.id
  comFile := ((w.fdt r.comfd).filter (·.kind = .com)).map File.id

end Server

/-- What the process has opened for the library has one descriptor. -/
structure World.FilesApart (w : World) : Prop where
  old : ∀ fd file, w.fdt fd = some file → file.id < w.files
  one : ∀ fd file, w.fdt fd = some file → file.kind ≠ .user → ∀ fd', w.holds fd' file.id → fd' = fd

/-- A record that `bind` has just added. -/
structure Server.Begins (s : Server) : Prop where
  bound : s = .ofBind s.pgid s.sock s.world
  files : s.world.FilesApart
  monitoring : s.sock.monitoring = true
  comfds : s.sock.comfds = []

def serveMachine (K : Kernel) : Machine Server ServeAct where
  init := Server.Begins
  step := Server.step K

end OpenDSU
