import OpenDSU.Lib.Machine
import Mathlib.Logic.Function.Basic

/-! The status flags of the listening `comfd`, and the processes that accept on it.

`comfd` is one open file in all processes that have it, by `fork` or by a message, so that its flags and its pending
connections are shared. -/

namespace OpenDSU

/-- The status flags of an open file, with the values of Linux. -/
abbrev StatusFlags := BitVec 32

def oNonblock : StatusFlags := 0o4000

def oAppend : StatusFlags := 0o2000

def oAsync : StatusFlags := 0o20000

def oDirect : StatusFlags := 0o40000

def oNoatime : StatusFlags := 0o1000000

/-- What `F_SETFL` can change of an open file. -/
def settable : StatusFlags := oAppend ||| oAsync ||| oDirect ||| oNoatime ||| oNonblock

/-- `dsu_fcntl` with `F_SETFL`, which reads the low word of its argument. The kernel may refuse. -/
def setfl (granted : StatusFlags → StatusFlags → Bool) (file : StatusFlags) (argp : BitVec 64) : StatusFlags :=
  let flags := argp.truncate 32
  if granted file flags then (flags &&& settable) ||| (file &&& ~~~settable) else file

/-- A local variable. -/
structure Local where
  address : BitVec 64
  value : BitVec 32

/-- `dsu_monitor_init` on the open file of `comfd`: its result, and the status flags of the file afterwards. -/
def dsuMonitorInitFlags (bound listened : Bool) (granted : StatusFlags → StatusFlags → Bool) (address : BitVec 64)
    (file : StatusFlags) : Int × StatusFlags :=
  if bound && listened then
    let flags : Local := { address := address, value := file ||| oNonblock }
    -- The argument is `(char *) &flags`.
    (0, setfl granted file flags.address)
  else (-1, file)

/-- A process with the `comfd`: in its program, past a wait that reported the `comfd`, in `dsu_accept4`, or past it,
    with a connection or with -1. -/
inductive Acceptor where
  | elsewhere
  | reported
  | waiting
  | returned (accepted : Bool)
deriving DecidableEq, Repr

/-- The open file of a `comfd` and the processes that share it, by their numbers. -/
structure Race where
  flags : StatusFlags
  pending : Nat
  arrived : Nat
  process : Nat → Acceptor

inductive RaceAct where
  /-- A newer version connects. -/
  | connect
  | report (i : Nat)
  /-- A handler calls `dsu_accept4`. -/
  | accept4 (i : Nat)
  /-- A call that waits gets a connection. -/
  | wake (i : Nat)
  | leave (i : Nat)
deriving DecidableEq, Repr

namespace Race

def start (flags : StatusFlags) : Race where
  flags := flags
  pending := 0
  arrived := 0
  process := fun _ => .elsewhere

def set (s : Race) (i : Nat) (a : Acceptor) : Race := { s with process := Function.update s.process i a }

/-- The process gets a pending connection. -/
def take (s : Race) (i : Nat) : Race := { s.set i (.returned true) with pending := s.pending - 1 }

def step (s : Race) : RaceAct → Option Race
  | .connect => some { s with pending := s.pending + 1, arrived := s.arrived + 1 }
  | .report i => if s.process i = .elsewhere ∧ 0 < s.pending then some (s.set i .reported) else none
  | .accept4 i =>
    if s.process i = .reported then
      if 0 < s.pending then some (s.take i)
      else if s.flags &&& oNonblock = 0 then some (s.set i .waiting)
      else some (s.set i (.returned false))
    else none
  | .wake i => if s.process i = .waiting ∧ 0 < s.pending then some (s.take i) else none
  | .leave i =>
    match s.process i with
    | .returned _ => some (s.set i .elsewhere)
    | _ => none

end Race

def raceMachine (flags : StatusFlags) : Machine Race RaceAct where
  init s := s = .start flags
  step := Race.step

end OpenDSU
