import OpenDSU.Core
import OpenDSU.Lib.Machine

/-! The processes of one group and the number `workers[0]` that they share: a process counts itself in its first
event call, and `dsu_terminate` takes it off and kills the group with the last one. -/

namespace OpenDSU

/-- The section of `dsu_activate_process`; `ok`: its `sem_wait` succeeds. -/
def activateSection (ok : Bool) (workers : Int) : Int := if ok then workers + 1 else workers

/-- The section of `dsu_terminate`, and whether it calls `killpg`. -/
def terminateSection (ok : Bool) (workers : Int) : Int × Bool :=
  if ok then (workers - 1, decide (workers - 1 = 0)) else (workers, false)

theorem dsuActivateProcess_workers (K : Kernel) (w : World) :
    (dsuActivateProcess K w).workers = activateSection (K.semWait w) (K.workers w) := by
  have hwait : w.waitWorkers K = (K.semWait w, { w.tick with workers := K.workers w }) := rfl
  unfold dsuActivateProcess activateSection
  rw [hwait]
  cases K.semWait w <;> rfl

theorem dsuTerminate_workers (K : Kernel) (p : Proc) :
    (dsuTerminate K p).world.workers = (terminateSection (K.semWait p.world) (K.workers p.world)).1 := by
  have hwait : p.world.waitWorkers K = (K.semWait p.world, { p.world.tick with workers := K.workers p.world }) := rfl
  unfold dsuTerminate terminateSection
  rw [hwait]
  cases K.semWait p.world <;> rfl

/-- A process of the group. `live` is the flag of `dsu_program_state`, which `fork` copies. `entered`: the process
    itself has entered an event call. -/
structure Worker where
  live : Bool
  entered : Bool
deriving DecidableEq, Repr

/-- `procs`: the processes that have not called `dsu_terminate`. `killed`: for every call of `killpg`, how many
    of them had entered an event call. -/
structure GroupState where
  workers : Int
  procs : List Worker
  killed : List Nat
deriving DecidableEq, Repr

inductive GroupAct where
  | fork (i : Nat)
  /-- The start of an event call. -/
  | event (i : Nat) (ok : Bool)
  /-- The termination detection of an event call lets the process go. -/
  | terminate (i : Nat) (ok : Bool)
deriving DecidableEq, Repr

namespace GroupState

/-- `dsu_terminate`; with `killpg` every process of the group is gone. -/
def terminated (s : GroupState) (ok : Bool) (rest : List Worker) : GroupState :=
  let (workers, kills) := terminateSection ok s.workers
  if kills then { workers := workers, procs := [], killed := s.killed ++ [rest.countP (·.entered)] }
  else { s with workers := workers, procs := rest }

def step (s : GroupState) : GroupAct → Option GroupState
  | .fork i => s.procs[i]?.map fun w => { s with procs := s.procs ++ [{ w with entered := false }] }
  | .event i ok => s.procs[i]?.map fun w =>
    { s with
      workers := if w.live then s.workers else activateSection ok s.workers
      procs := s.procs.set i { live := true, entered := true } }
  | .terminate i ok => s.procs[i]?.bind fun w =>
    if w.entered then some (s.terminated ok (s.procs.eraseIdx i)) else none

/-- `dsu_init`. -/
def start : GroupState where
  workers := 0
  procs := [{ live := false, entered := false }]
  killed := []

end GroupState

def groupMachine : Machine GroupState GroupAct where
  init s := s = .start
  step := GroupState.step

end OpenDSU
