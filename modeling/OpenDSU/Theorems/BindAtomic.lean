import OpenDSU.Theorems.Calls
import Mathlib.Tactic.ByContra

/-! What a `bind` that fails leaves behind.

`bind` opens the semaphores anew, resets `status[]` and moves the record to `binds` before it asks the kernel
to bind the socket. None of this is taken back when the kernel refuses. -/

namespace OpenDSU

variable (K : Kernel) (p : Proc)

/-- `bind` up to its choice between the two branches: what `dsu_inherit_fd` returns (-1 where there is nobody to
    ask), the record and the kernel's side. -/
def bindAttempt (s : DsuSocket) (port : Nat) : Int × DsuSocket × World :=
  let (comfd, w) := p.world.allot K .com
  let s := { s with port := port, comfd := comfd }
  let (named, w) := dsuMonitorInit K s w
  if named = .inUse then dsuInheritFd K s w else (-1, s, w)

theorem bind_eq_attempt {sockfd : Int} {port : Nat} {s : DsuSocket} (hs : dsuSocketsSearchFd p.sockets sockfd = some s) :
    bind K p sockfd port =
      let a := bindAttempt K p s port
      if 0 < a.1 then bindInherit K p a.2.1 a.2.2 else bindFirst K p a.2.1 a.2.2 := by
  unfold bind bindAttempt
  rw [hs]
  simp only
  generalize dsuMonitorInit K { s with port := port, comfd := (p.world.allot K .com).1 }
    (p.world.allot K .com).2 = named
  split
  · rfl
  · rfl

/-- `status[]` of the port as the branch of the first version finds it. -/
def bindFound (s : DsuSocket) (port : Nat) : Status :=
  let a := bindAttempt K p s port
  ((openSems K a.2.1 a.2.2).2.waitStatus K port).2.status port

/-- The semaphores after `bind`. -/
def bindTable (s : DsuSocket) (port : Nat) (t : SemTable String) : SemTable String :=
  if 0 < (bindAttempt K p s port).1 then (bindInheritSems port t s).1 else (bindFirstSems port t s).1

/-- The kernel refuses neither an inherited nor a new socket: the exchange with a running version gives a port, or
    the final `dsu_bind` succeeds. -/
def BindGranted (s : DsuSocket) (port : Nat) : Prop :=
  let a := bindAttempt K p s port
  0 < a.1 ∨ K.bind (enterFirst K p.pgid (openSems K a.2.1 a.2.2).1 (openSems K a.2.1 a.2.2).2).2 s.fd = true

variable {K p}

/-- The record `s` is still in `sockets` and has not been moved, `status[]` is what it was or what another process
    has made of it, and the names of the semaphores still belong to the same objects. -/
structure BindKept (K : Kernel) (p q : Proc) (s : DsuSocket) (port : Nat) (t t' : SemTable String) : Prop where
  sockets : ∃ s' ∈ q.sockets, s'.fd = s.fd ∧ s'.shadowfd = s.shadowfd ∧ s'.monitoring = s.monitoring
  binds : q.binds = p.binds
  status : q.world.status port = p.world.status port ∨ q.world.status port = bindFound K p s port
  statusSem : t'.names (pathnameStatusSem port) = t.names (pathnameStatusSem port)
  fdSem : t'.names (pathnameFdSem port) = t.names (pathnameFdSem port)

/-- A `bind` of the socket `s` that returns -1 has changed nothing. -/
def BindAtomic (K : Kernel) (p : Proc) (s : DsuSocket) (port : Nat) (t : SemTable String) : Prop :=
  (bind K p s.fd port).1 = -1 → BindKept K p (bind K p s.fd port).2 s port t (bindTable K p s port t)

theorem dsuInheritFd_fd (s : DsuSocket) (w : World) : (dsuInheritFd K s w).2.1.fd = s.fd := by
  rw [dsuInheritFd_eq]
  split <;> rfl

theorem bindAttempt_fd (s : DsuSocket) (port : Nat) : (bindAttempt K p s port).2.1.fd = s.fd := by
  unfold bindAttempt
  simp only
  split
  · exact dsuInheritFd_fd _ _
  · rfl

/-- The branch of the first version returns what the kernel says of the socket. -/
theorem bindFirst_result (s : DsuSocket) (w : World) : (bindFirst K p s w).1 =
    if K.bind (enterFirst K p.pgid (openSems K s w).1 (openSems K s w).2).2 s.fd then 0 else -1 := by
  have hfd := (enterFirst_alike K p.pgid (openSems K s w).1 (openSems K s w).2 rfl).1.fd
  change (if K.bind _ (enterFirst K p.pgid (openSems K s w).1 (openSems K s w).2).1.fd then (0 : Int) else -1) = _
  rw [hfd]
  rfl

/-- `bind` of a socket in `sockets` returns -1 exactly when it is not granted. -/
theorem bind_result {s : DsuSocket} {port : Nat} (hs : dsuSocketsSearchFd p.sockets s.fd = some s) :
    (bind K p s.fd port).1 = -1 ↔ ¬BindGranted K p s port := by
  rw [bind_eq_attempt K p hs]
  have hfd := bindAttempt_fd (K := K) (p := p) s port
  unfold BindGranted
  generalize bindAttempt K p s port = a at hfd ⊢
  simp only
  by_cases hres : 0 < a.1
  · simp [hres, bindInherit]
  · rw [if_neg hres, bindFirst_result, hfd]
    simp only [hres, false_or]
    split
    · rename_i hgranted
      simp [hgranted]
    · rename_i hrefused
      simp [hrefused]

/-- The second object of a first version has the name. -/
theorem bindFirstSems_names (port : Nat) (t : SemTable String) (s : DsuSocket) :
    (bindFirstSems port t s).1.names (pathnameFdSem port) = some (t.allocated + 2) := by
  simp only [bindFirstSems, SemTable.openExcl_unlink]
  simp [SemTable.create, SemTable.setValue, SemTable.unlink]

/-- What a refused `bind` leaves: the record is in `binds` and monitors, `status[]` is that of a first version
    where `sem_wait` succeeds, and the names of the semaphores lead to a new object. -/
structure Refused (p q : Proc) (s : DsuSocket) (port : Nat) (ok : Bool) (t t' : SemTable String) : Prop where
  sockets : q.sockets = dsuSocketsRemoveFd p.sockets s.fd
  binds : ∃ s', q.binds = p.binds ++ [s'] ∧ s'.fd = s.fd ∧ s'.monitoring = true
  status : ok = true → q.world.status port = { pgid := p.pgid, version := 0, transfer := 0 }
  sems : t'.names (pathnameFdSem port) = some (t.allocated + 2)

theorem bindAttempt_port (s : DsuSocket) (port : Nat) : (bindAttempt K p s port).2.1.port = port := by
  unfold bindAttempt
  simp only
  split
  · rw [dsuInheritFd_eq]
    split <;> rfl
  · rfl

theorem enterFirst_status (pgid : Int) (s : DsuSocket) (w : World) (hok : K.semWait w = true) :
    (enterFirst K pgid s w).2.status s.port = { pgid := pgid, version := 0, transfer := 0 } := by
  have hwait : w.waitStatus K s.port = (true, (w.waitStatus K s.port).2) := Prod.ext hok rfl
  unfold enterFirst
  rw [hwait]
  simp [World.setStatus, bindFirstSection]

theorem bind_refused {s : DsuSocket} {port : Nat} (hs : dsuSocketsSearchFd p.sockets s.fd = some s)
    (hrefused : ¬BindGranted K p s port) (t : SemTable String) :
    Refused p (bind K p s.fd port).2 s port
      (K.semWait (openSems K (bindAttempt K p s port).2.1 (bindAttempt K p s port).2.2).2) t
      (bindTable K p s port t) := by
  have hfd := bindAttempt_fd (K := K) (p := p) s port
  have hport := bindAttempt_port (K := K) (p := p) s port
  unfold BindGranted at hrefused
  unfold bindTable
  rw [bind_eq_attempt K p hs]
  generalize bindAttempt K p s port = a at hfd hport hrefused ⊢
  simp only at hrefused ⊢
  have hres : ¬0 < a.1 := fun h => hrefused (Or.inl h)
  rw [if_neg hres, if_neg hres]
  have hbound := bindFirst_bound K p a.2.1 a.2.2
  obtain ⟨s', hbinds, hfd', -, -, -, -, -, hmonitoring, -⟩ := hbound.binds
  exact {
    sockets := hfd ▸ hbound.sockets
    binds := ⟨s', hbinds, hfd'.trans hfd, hmonitoring⟩
    status := fun hok => hport ▸ enterFirst_status p.pgid (openSems K a.2.1 a.2.2).1 (openSems K a.2.1 a.2.2).2 hok
    sems := bindFirstSems_names port t s }

/-- `bind` is atomic on failure exactly where it does not fail. -/
theorem bindAtomic_iff {s : DsuSocket} (hs : dsuSocketsSearchFd p.sockets s.fd = some s) (port : Nat) (t : SemTable String) :
    BindAtomic K p s port t ↔ BindGranted K p s port := by
  constructor
  · intro h
    by_contra hrefused
    have hkept := h ((bind_result hs).mpr hrefused)
    obtain ⟨s', hbinds, -, -⟩ := (bind_refused hs hrefused t).binds
    have hlen := congrArg List.length (hbinds.symm.trans hkept.binds)
    simp at hlen
  · intro hgranted hfail
    exact absurd hgranted ((bind_result hs).mp hfail)

/-- A new socket is bound where nothing fails. -/
theorem bindAtomic_of_new_socket : ∃ p s, (procMachine soloKernel).run .loaded [.socket] = some p ∧
    dsuSocketsSearchFd p.sockets 3 = some s ∧ ∀ t, BindAtomic soloKernel p s 8080 t :=
  ⟨_, _, rfl, rfl, fun t => (bindAtomic_iff rfl 8080 t).mpr (Or.inr rfl)⟩

/-- Another version runs and does not answer, and the kernel refuses the address. -/
def refusingKernel : Kernel :=
  { soloKernel with
    bindName := fun _ _ => .inUse
    connect := fun _ _ => false
    bind := fun _ _ => false
    status := fun _ _ => { pgid := 7, version := 3, transfer := 1 } }

/-- The `bind` of socket 3 is refused: the counters of the running version are gone, and so is the record. -/
theorem bind_resets_running_version : ∃ p s q, (procMachine refusingKernel).run .loaded [.socket] = some p ∧
    dsuSocketsSearchFd p.sockets 3 = some s ∧ s.fd = 3 ∧ bind refusingKernel p 3 8080 = (-1, q) ∧
    bindFound refusingKernel p s 8080 = { pgid := 7, version := 3, transfer := 1 } ∧
    q.world.status 8080 = { pgid := 1, version := 0, transfer := 0 } ∧ q.sockets = [] ∧
    q.binds.map (fun r => (r.fd, r.monitoring)) = [(3, true)] ∧
    ∀ t, ¬BindAtomic refusingKernel p s 8080 t := by
  refine ⟨_, _, _, rfl, rfl, rfl, rfl, rfl, rfl, rfl, rfl, fun t h => ?_⟩
  exact absurd (h rfl).binds (by decide)

end OpenDSU
