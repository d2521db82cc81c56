import OpenDSU.Theorems.Reports

/-! When the descriptor lock of a port is lost. `fd_sem` is given back only by the event call of the process that took it:
one that goes with it takes it away from all processes of the port, of every version. -/

namespace OpenDSU

/-- How many steps an event call is away from its end. -/
def Stage.left : Stage → Nat
  | .program => 5
  | .begun => 4
  | .checked _ => 3
  | .waiting _ => 2
  | .serving => 1

namespace WaitState

/-- The locks that are free or held. A fork copies the lock of its process. -/
def locks (s : WaitState) : Nat := s.shared.fdSem + s.waiters.countP (·.sock.locked)

/-- Some run leads to a state in which the lock is free. -/
def Obtainable (s : WaitState) : Prop := waitMachine.Can (fun _ _ => True) (fun t => 0 < t.shared.fdSem) s

/-- No process goes with the only lock. -/
def KeepsLock (s : WaitState) : WaitAct → Prop
  | .leave i => ∀ r ∈ s.waiters[i]?, r.sock.locked = true → 1 < s.locks
  | .move .. | .arrive | .inherit .. | .fork _ => True

variable {s t : WaitState} {i : Nat} {r : Waiter}

/-! ### What a step leaves of the locks -/

/-- A process loses no lock; it has one at least where it takes one while it has one. -/
theorem kept_of_moved {x x' : Shared} {r r' : Waiter} {m : Move} (h : Moved x r m x' r') :
    x.fdSem + r.share ≤ x'.fdSem + r'.share ∨ r'.sock.locked = true := by
  cases h with
  | enter hstage hle hlocked => simp [Waiter.share, hlocked]
  | locked hstage hmonitoring hsem => exact Or.inr rfl
  | answer hstage => simp [Waiter.share, answerSection_locked]
  | finish hstage => cases hlocked : r.sock.locked <;> simp [Waiter.share, hlocked]
  | _ => exact Or.inl (Nat.le_refl _)

/-- No step but a fork makes a lock, and a fork only copies one. -/
theorem locks_zero {a : WaitAct} (h : s.locks = 0) (hs : s.step a = some t) : t.locks = 0 := by
  unfold locks at h ⊢
  cases a with
  | move i m =>
    obtain ⟨r, s', r', hr, hm, rfl⟩ := move_inv hs
    have hset := countP_set_add (p := fun r : Waiter => r.sock.locked) hr r'
    have hlock := hm.lock
    simp only [Waiter.share] at hset hlock ⊢
    omega
  | arrive =>
    cases hs
    exact h
  | inherit k live =>
    obtain ⟨pgid, rfl⟩ := inherit_inv hs
    simp only [List.countP_append]
    exact h
  | fork i =>
    obtain ⟨r, hr, -, rfl⟩ := fork_inv hs
    have hnone : s.waiters.countP (·.sock.locked) = 0 := by omega
    have hlocked : r.sock.locked = false := by
      simpa using List.countP_eq_zero.mp hnone r (List.mem_of_getElem? hr)
    simp only [List.countP_append, List.countP_singleton, hlocked]
    exact h
  | leave i =>
    obtain ⟨r, hr, rfl⟩ := leave_inv hs
    have herase := countP_eraseIdx_add (p := fun r : Waiter => r.sock.locked) hr
    simp only
    omega

/-- The last lock goes only with a process. -/
theorem locks_pos_iff {a : WaitAct} (h : 0 < s.locks) (hs : s.step a = some t) : 0 < t.locks ↔ s.KeepsLock a := by
  unfold KeepsLock
  cases a with
  | move i m =>
    obtain ⟨r, s', r', hr, hm, rfl⟩ := move_inv hs
    have hset := countP_set_add (p := fun r : Waiter => r.sock.locked) hr r'
    refine iff_of_true ?_ trivial
    unfold locks at h ⊢
    rcases kept_of_moved hm with hkept | hlocked
    · simp only [Waiter.share] at hset hkept ⊢
      omega
    · have hpos : 0 < (s.waiters.set i r').countP (·.sock.locked) := List.countP_pos_iff.mpr ⟨r', mem_set_self hr, hlocked⟩
      simp only
      omega
  | arrive =>
    cases hs
    exact iff_of_true h trivial
  | inherit k live =>
    obtain ⟨pgid, rfl⟩ := inherit_inv hs
    refine iff_of_true ?_ trivial
    unfold locks at h ⊢
    simp only [List.countP_append]
    omega
  | fork i =>
    obtain ⟨r, hr, -, rfl⟩ := fork_inv hs
    refine iff_of_true ?_ trivial
    unfold locks at h ⊢
    simp only [List.countP_append]
    omega
  | leave i =>
    obtain ⟨r, hr, rfl⟩ := leave_inv hs
    have herase := countP_eraseIdx_add (p := fun r : Waiter => r.sock.locked) hr
    unfold locks at h ⊢
    simp only [hr, Option.mem_def, Option.some.injEq, forall_eq'] at herase ⊢
    cases hlocked : r.sock.locked with
    | false => simp_all
    | true =>
      simp only [hlocked, if_true] at herase
      simp only [forall_const]
      omega

/-! ### A process that has the lock can give it back -/

theorem step_move {x : Shared} {r' : Waiter} {m : Move} (hr : s.waiters[i]? = some r)
    (hm : s.shared.move r m = some (x, r')) :
    s.step (.move i m) = some { shared := x, waiters := s.waiters.set i r' } := by
  simp [step, hr, hm]

theorem set_get (hr : s.waiters[i]? = some r) (r' : Waiter) : (s.waiters.set i r')[i]? = some r' :=
  List.getElem?_set_self (List.getElem?_eq_some_iff.mp hr).1

/-- Process `i` has the lock. -/
def Locked (i : Nat) (s : WaitState) : Prop := ∃ r, s.waiters[i]? = some r ∧ r.sock.locked = true

/-- Its event call can go on to the end of its wait, or it can begin one. -/
theorem Locked.can_serve (h : Locked i s) : waitMachine.Can (fun _ _ => True)
    (fun t => ∃ r, t.waiters[i]? = some r ∧ r.sock.locked = true ∧ r.stage = .serving) s := by
  refine Machine.Can.of_measure (R := Locked i) (fun s => ((s.waiters[i]?).map (·.stage.left)).getD 0) ?_ h
  rintro s ⟨r, hr, hl⟩
  -- A step that keeps the lock and comes nearer to the end.
  have next : ∀ {m : Move} {x : Shared} {r' : Waiter}, s.shared.move r m = some (x, r') → r'.sock.locked = true →
      r'.stage.left < r.stage.left → (∃ r, s.waiters[i]? = some r ∧ r.sock.locked = true ∧ r.stage = .serving) ∨
      ∃ a t, waitMachine.step s a = some t ∧ True ∧ Locked i t ∧
        ((t.waiters[i]?).map (·.stage.left)).getD 0 < ((s.waiters[i]?).map (·.stage.left)).getD 0 := by
    intro m x r' hm hl' hless
    refine Or.inr ⟨.move i m, _, step_move hr hm, trivial, ⟨r', set_get hr r', hl'⟩, ?_⟩
    rw [set_get hr r', hr]
    exact hless
  cases hstage : r.stage with
  | program =>
    have hmove : ∃ y, s.shared.move r (.enter true) = some y := by simp [Shared.move, hstage]
    obtain ⟨⟨x, r'⟩, hm⟩ := hmove
    refine next hm ?_ ?_
    · cases moved_of_move hm with
      | enter _ _ hlocked => exact hlocked.trans hl
    · cases moved_of_move hm with
      | enter => simp [Stage.left, hstage]
  | begun =>
    have hm : s.shared.move r (.check false false true) = some (s.shared, { r with stage := .checked .refused }) := by
      simp [Shared.move, hstage, Waiter.decided]
    exact next hm hl (by simp [Stage.left, hstage])
  | checked access =>
    have hm : s.shared.move r .wait = some (s.shared, { r with stage := .waiting access }) := by
      simp [Shared.move, hstage]
    exact next hm hl (by simp [Stage.left, hstage])
  | waiting access =>
    have hm : s.shared.move r (.wake false) = some (s.shared, { r with stage := .serving }) := by
      simp [Shared.move, hstage]
    exact next hm hl (by simp [Stage.left, hstage])
  | serving => exact Or.inl ⟨r, hr, hl, hstage⟩

/-- Then it gives the lock back. -/
theorem Locked.obtainable (h : Locked i s) : s.Obtainable := by
  refine h.can_serve.bind (R := fun _ => True) (fun _ _ _ _ _ _ => trivial) trivial fun t _ ⟨r, hr, hl, hstage⟩ => ?_
  have hm : t.shared.move r .finish = some ({ t.shared with fdSem := t.shared.fdSem + 1 },
      { r with sock := { r.sock with locked := false }, stage := .program }) := by
    simp [Shared.move, hstage, hl]
  exact .step (.move i .finish) (step_move hr hm) trivial (.here (Nat.succ_pos _))

theorem obtainable_iff : s.Obtainable ↔ 0 < s.locks := by
  constructor
  · rintro ⟨as, t, hrun, -, ht⟩
    by_contra hzero
    have hnone : t.locks = 0 :=
      Machine.run_invariant (I := fun s => s.locks = 0) (fun _ _ _ => locks_zero) (by omega) hrun
    unfold locks at hnone
    omega
  · intro hpos
    by_cases hfree : 0 < s.shared.fdSem
    · exact .here hfree
    · have hcount : 0 < s.waiters.countP (·.sock.locked) := by
        unfold locks at hpos
        omega
      obtain ⟨r, hmem, hl⟩ := List.countP_pos_iff.mp hcount
      obtain ⟨i, hr⟩ := List.getElem?_of_mem hmem
      exact Locked.obtainable ⟨r, hr, hl⟩

/-- In every run of the processes of a port, the lock can be had again in all states if and only if no process goes with the
    only one. -/
theorem obtainable_throughout_iff (port : Nat) (pgid : Int) (blocking live : Bool) (as : List WaitAct) :
    waitMachine.Throughout Obtainable (start port pgid blocking live) as ↔
      waitMachine.Steps KeepsLock (start port pgid blocking live) as :=
  Machine.throughout_iff_steps (I := fun s => 0 < s.locks) (fun _ h => obtainable_iff.mpr h)
    (fun _ _ _ h ha hs => (locks_pos_iff h hs).mpr ha)
    (fun _ _ _ h hs ht => (locks_pos_iff h hs).mp (obtainable_iff.mp ht)) as (Nat.lt_add_right _ Nat.one_pos)

end WaitState

end OpenDSU
