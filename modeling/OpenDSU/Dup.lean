import OpenDSU.Core

/-! `dup`, `dup2` and `dup3` of `core.c`. -/

namespace OpenDSU

/-- `dsu_dup`: another number for the file, when there is one. -/
def World.dup (K : Kernel) (w : World) (oldfd : Int) : Int × World :=
  match K.number w with
  | some n =>
    if w.isOpen oldfd && 0 ≤ n && !w.isOpen n then
      (n, { w.tick with fdt := fun d => if d = n then w.fdt oldfd else w.fdt d })
    else (-1, w.tick)
  | none => (-1, w.tick)

/-- The number `newfd` comes to stand for the file of `oldfd`; the kernel closes it first where it is open. A
    registration with an epoll instance goes with the last descriptor of its file. -/
def World.replace (K : Kernel) (w : World) (oldfd newfd : Int) : World :=
  { w.tick with
    fdt := fun d => if d = newfd then w.fdt oldfd else w.fdt d
    regs :=
      match w.fdt newfd with
      | some file => if K.shared w file.id then w.regs else w.regs.filter (·.file ≠ file.id)
      | none => w.regs }

/-- `dsu_dup2`. `granted`: whether the kernel allows the number and is not interrupted. -/
def World.dup2 (K : Kernel) (granted : Bool) (w : World) (oldfd newfd : Int) : Int × World :=
  if w.isOpen oldfd && 0 ≤ newfd && granted then
    (newfd, if oldfd = newfd then w.tick else w.replace K oldfd newfd)
  else (-1, w.tick)

/-- `dsu_dup3`, which takes two equal descriptors for an error. -/
def World.dup3 (K : Kernel) (granted : Bool) (w : World) (oldfd newfd : Int) : Int × World :=
  if oldfd = newfd then (-1, w.tick) else w.dup2 K granted oldfd newfd

def dup (K : Kernel) (p : Proc) (oldfd : Int) : Int × Proc :=
  let (fd, w) := p.world.dup K (dsuShadowfd p.binds oldfd)
  (fd, { p with world := w })

def dup2 (K : Kernel) (granted : Bool) (p : Proc) (oldfd newfd : Int) : Int × Proc :=
  let (fd, w) := p.world.dup2 K granted (dsuShadowfd p.binds oldfd) (dsuShadowfd p.binds newfd)
  (fd, { p with world := w })

def dup3 (K : Kernel) (granted : Bool) (p : Proc) (oldfd newfd : Int) : Int × Proc :=
  let (fd, w) := p.world.dup3 K granted (dsuShadowfd p.binds oldfd) (dsuShadowfd p.binds newfd)
  (fd, { p with world := w })

end OpenDSU
