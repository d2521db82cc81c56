import OpenDSU.State

/-! The shared memory `status[]` of a port, and the critical sections under `status_sem` that read and
write it: those of `bind`, `dsu_monitor_fd` and of the three handlers when they answer a request. -/

namespace OpenDSU

/-- `status[DSU_PGID]`, `status[DSU_VERSION]`, `status[DSU_TRANSFER]`. -/
structure Status where
  pgid : Int
  version : Int
  transfer : Int
deriving DecidableEq, Repr

/-- `bind`, no other version running: the version starts at 0 and the group of the process holds it. -/
def bindFirstSection (pgid : Int) (s : DsuSocket) : Status × DsuSocket :=
  ({ pgid := pgid, version := 0, transfer := 0 },
    { s with monitoring := true, version := 0, transfer := false })

/-- `bind`, descriptors inherited: a process of another group than `status[DSU_PGID]` is a newer version. -/
def bindInheritSection (pgid : Int) (st : Status) (s : DsuSocket) : DsuSocket :=
  { s with
    monitoring := true
    version := if st.pgid ≠ pgid then st.version + 1 else st.version }

/-- The handlers, answering a request: possibly several processes respond, each is counted once. -/
def answerSection (st : Status) (s : DsuSocket) : Status × DsuSocket :=
  if s.transfer then (st, s) else ({ st with transfer := st.transfer + 1 }, { s with transfer := true })

/-- `dsu_monitor_fd` stops monitoring (and closes `comfd`). -/
def DsuSocket.quits (s : DsuSocket) (st : Status) : Bool :=
  decide (s.version < st.version) && s.monitoring && !s.locked

/-- `dsu_monitor_fd` raises the version of the port. -/
def DsuSocket.raises (s : DsuSocket) (st : Status) : Bool :=
  decide (st.version < s.version) && s.monitoring

/-- The first conditional of `dsu_monitor_fd`. -/
def quitSection (st : Status) (s : DsuSocket) : Status × DsuSocket :=
  if s.quits st then
    ({ st with transfer := st.transfer - 1 }, { s with monitoring := false, transfer := false })
  else (st, s)

/-- The second conditional of `dsu_monitor_fd`. -/
def raiseSection (pgid : Int) (st : Status) (s : DsuSocket) : Status :=
  if s.raises st then { st with pgid := pgid, version := st.version + 1 } else st

/-- `dsu_monitor_fd` under `status_sem`, called by a process of group `pgid`. -/
def monitorSection (pgid : Int) (st : Status) (s : DsuSocket) : Status × DsuSocket :=
  let (st, s) := quitSection st s
  (raiseSection pgid st s, s)

/-- What `dsu_monitor_fd` does to a port: it stops monitoring, or raises the version, or nothing. -/
theorem monitorSection_cases (pgid : Int) (st : Status) (s : DsuSocket) :
    (s.quits st = true ∧ monitorSection pgid st s =
      ({ st with transfer := st.transfer - 1 }, { s with monitoring := false, transfer := false })) ∨
    (s.quits st = false ∧ s.raises st = true ∧ monitorSection pgid st s =
      ({ st with pgid := pgid, version := st.version + 1 }, s)) ∨
    (s.quits st = false ∧ s.raises st = false ∧ monitorSection pgid st s = (st, s)) := by
  unfold monitorSection quitSection
  cases hq : s.quits st
  · cases hr : s.raises st
    · simp [raiseSection, hr]
    · simp [raiseSection, hr]
  · simp [raiseSection, DsuSocket.raises]

theorem quits_iff {s : DsuSocket} {st : Status} :
    s.quits st = true ↔ s.version < st.version ∧ s.monitoring = true ∧ s.locked = false := by
  simp [DsuSocket.quits, and_assoc]

theorem raises_iff {s : DsuSocket} {st : Status} :
    s.raises st = true ↔ st.version < s.version ∧ s.monitoring = true := by
  simp [DsuSocket.raises]

end OpenDSU
