import OpenDSU.Workers
import OpenDSU.Lib.Places

/-! Whether `workers[0]` is the number of the workers of a group, so that the group is killed with the last one.

A process counts itself under its own flag `live`, and `fork` copies the flag of a parent that has counted itself
already. Such a child is never counted, but `dsu_terminate` takes it off like any other. -/

namespace OpenDSU.GroupState

/-- `workers[0]` counts the processes that have entered an event call, and `killpg` was called only when none of
    them was left. -/
structure CountsWorkers (s : GroupState) : Prop where
  exact : s.workers = (s.procs.countP (·.entered) : Int)
  idle : ∀ n ∈ s.killed, n = 0

/-- What a step must respect: a process that enters its first event call has not been forked by one that had, and
    the semaphore of the group is not refused to a process that counts itself or is taken off. -/
def CountedOnce (s : GroupState) : GroupAct → Prop
  | .fork _ => True
  | .event i ok => ∀ w ∈ s.procs[i]?, w.entered = false → w.live = false ∧ ok = true
  | .terminate _ ok => ok = true

/-- The invariant: besides, a process that has entered an event call is marked. -/
structure Marked (s : GroupState) : Prop where
  counts : s.CountsWorkers
  live : ∀ w ∈ s.procs, w.entered = true → w.live = true

variable {s t : GroupState}

theorem fork_inv {i : Nat} (h : s.step (.fork i) = some t) :
    ∃ w, s.procs[i]? = some w ∧ t = { s with procs := s.procs ++ [{ w with entered := false }] } := by
  obtain ⟨w, hw, rfl⟩ := Option.map_eq_some_iff.mp h
  exact ⟨w, hw, rfl⟩

theorem event_inv {i : Nat} {ok : Bool} (h : s.step (.event i ok) = some t) :
    ∃ w, s.procs[i]? = some w ∧ t = { s with
      workers := if w.live then s.workers else activateSection ok s.workers
      procs := s.procs.set i { live := true, entered := true } } := by
  obtain ⟨w, hw, rfl⟩ := Option.map_eq_some_iff.mp h
  exact ⟨w, hw, rfl⟩

theorem terminate_inv {i : Nat} {ok : Bool} (h : s.step (.terminate i ok) = some t) :
    ∃ w, s.procs[i]? = some w ∧ w.entered = true ∧ t = s.terminated ok (s.procs.eraseIdx i) := by
  obtain ⟨w, hw, h⟩ := Option.bind_eq_some_iff.mp h
  split at h
  · rename_i he
    exact ⟨w, hw, he, (Option.some.inj h).symm⟩
  · cases h

theorem fork_marked {i : Nat} (h : s.Marked) (hs : s.step (.fork i) = some t) : t.Marked := by
  obtain ⟨w, -, rfl⟩ := fork_inv hs
  refine ⟨⟨?_, h.counts.idle⟩, fun x hx he => ?_⟩
  · simp [h.counts.exact]
  · rcases List.mem_append.mp hx with hx | hx
    · exact h.live x hx he
    · cases List.mem_singleton.mp hx
      cases he

/-- Where no `killpg` is called, only the number matters. -/
theorem countsWorkers_iff (h : s.CountsWorkers) (hkilled : t.killed = s.killed) :
    t.CountsWorkers ↔ t.workers = (t.procs.countP (·.entered) : Int) :=
  ⟨fun ht => ht.exact, fun he => ⟨he, hkilled ▸ h.idle⟩⟩

/-- The first event call of a process adds one to both sides, or to one of them. -/
theorem event_marked {i : Nat} {ok : Bool} (h : s.Marked) (hs : s.step (.event i ok) = some t) :
    t.CountsWorkers ↔ s.CountedOnce (.event i ok) := by
  obtain ⟨w, hw, rfl⟩ := event_inv hs
  have hset := countP_set_add (p := fun w : Worker => w.entered) hw { live := true, entered := true }
  have hexact := h.counts.exact
  have honce : s.CountedOnce (.event i ok) ↔ (w.entered = false → w.live = false ∧ ok = true) := by
    simp [CountedOnce, hw]
  refine Iff.trans (countsWorkers_iff h.counts ?_) (Iff.trans ?_ honce.symm)
  · rfl
  cases he : w.entered
  · simp only [he, Bool.false_eq_true, if_false, if_true, Nat.add_zero, true_imp_iff] at hset ⊢
    cases hl : w.live
    · cases ok <;> simp only [activateSection, Bool.false_eq_true, if_false, if_true] <;> constructor <;> intro _ <;>
        first | trivial | omega
    · simp only [if_true]
      constructor
      · omega
      · intro hnot
        cases hnot.1
  · have hl := h.live w (List.mem_of_getElem? hw) he
    simp only [he, hl, if_true] at hset ⊢
    simp only [reduceCtorEq, false_imp_iff, iff_true]
    omega

theorem event_live {i : Nat} {ok : Bool} (h : s.Marked) (hs : s.step (.event i ok) = some t) :
    ∀ w ∈ t.procs, w.entered = true → w.live = true := by
  obtain ⟨w, hw, rfl⟩ := event_inv hs
  intro x hx he
  rcases mem_set_cases hw hx with rfl | hx
  · rfl
  · exact h.live x hx he

/-- `dsu_terminate` takes one off both sides; `killpg` follows when nothing is left on either. -/
theorem terminate_marked {i : Nat} {ok : Bool} (h : s.Marked) (hs : s.step (.terminate i ok) = some t) :
    t.CountsWorkers ↔ ok = true := by
  obtain ⟨w, hw, he, rfl⟩ := terminate_inv hs
  have herase := countP_eraseIdx_add (p := fun w : Worker => w.entered) hw
  have hexact := h.counts.exact
  simp only [he, if_true] at herase
  cases ok
  · refine Iff.trans (countsWorkers_iff h.counts ?_) ?_
    · rfl
    simp only [terminated, terminateSection, Bool.false_eq_true, if_false, iff_false]
    omega
  · simp only [iff_true, terminated, terminateSection, if_true, decide_eq_true_eq]
    split
    · rename_i hzero
      have hnone : (s.procs.eraseIdx i).countP (·.entered) = 0 := by omega
      refine ⟨hzero, fun n hn => ?_⟩
      rcases List.mem_append.mp hn with hn | hn
      · exact h.counts.idle n hn
      · exact (List.mem_singleton.mp hn).trans hnone
    · refine ⟨?_, h.counts.idle⟩
      simp only
      omega

theorem terminate_live {i : Nat} {ok : Bool} (h : s.Marked) (hs : s.step (.terminate i ok) = some t) :
    ∀ w ∈ t.procs, w.entered = true → w.live = true := by
  obtain ⟨w, -, -, rfl⟩ := terminate_inv hs
  unfold terminated
  simp only
  split
  · simp
  · exact fun x hx => h.live x (List.mem_of_mem_eraseIdx hx)

/-- A step keeps the number exact if and only if it counts every process once. -/
theorem step_counts {a : GroupAct} (h : s.Marked) (hs : s.step a = some t) : t.CountsWorkers ↔ s.CountedOnce a := by
  cases a with
  | fork i => exact ⟨fun _ => trivial, fun _ => (fork_marked h hs).counts⟩
  | event i ok => exact event_marked h hs
  | terminate i ok => exact terminate_marked h hs

theorem step_live {a : GroupAct} (h : s.Marked) (hs : s.step a = some t) :
    ∀ w ∈ t.procs, w.entered = true → w.live = true := by
  cases a with
  | fork i => exact (fork_marked h hs).live
  | event i ok => exact event_live h hs
  | terminate i ok => exact terminate_live h hs

theorem start_marked : start.Marked :=
  ⟨⟨rfl, by simp [start]⟩, by simp [start]⟩

/-- A run keeps `workers[0]` exact, and kills the group only when it is idle, if and only if each of its steps
    counts every process once. -/
theorem countsWorkers_throughout_iff (as : List GroupAct) :
    groupMachine.Throughout CountsWorkers start as ↔ groupMachine.Steps CountedOnce start as :=
  Machine.throughout_iff_steps (I := Marked) (fun _ => Marked.counts)
    (fun _ _ _ h ha hs => ⟨(step_counts h hs).mpr ha, step_live h hs⟩)
    (fun _ _ _ h hs ht => (step_counts h hs).mp ht) as start_marked

/-- The parent enters an event call and forks a worker. The worker terminates, and the group is killed with the
    parent in it. -/
theorem killed_with_parent : ∃ s t, groupMachine.run start [.event 0 true, .fork 0, .event 1 true] = some s ∧
    s.workers = 1 ∧ s.procs.countP (·.entered) = 2 ∧ ¬s.CountsWorkers ∧
    s.step (.terminate 1 true) = some t ∧ t.killed = [1] ∧ ¬t.CountsWorkers := by
  refine ⟨_, _, rfl, rfl, by decide, fun h => ?_, rfl, by decide, fun h => ?_⟩
  · exact absurd h.exact (by decide)
  · exact absurd (h.idle 1 (by decide)) (by decide)

end OpenDSU.GroupState
