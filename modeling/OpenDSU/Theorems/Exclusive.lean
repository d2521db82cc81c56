import OpenDSU.Theorems.WaitStep

/-! Whether one process at a time waits on a blocking socket during a transfer.

A handler looks at `status[DSU_TRANSFER]` once, before its wait, and at the flag `blocking` of its record, which
the first event call of the process has set. So the processes that wait when the counter rises wait without the
lock, and a record that was bound after the first event call never asks for it. -/

namespace OpenDSU

namespace Waiter

/-- Its wait includes the socket, from the section that decides to the end of the wait. -/
def admitted (r : Waiter) : Bool := r.stage.access != .refused

/-- In the kernel wait, with the descriptor of the socket in the wait set. -/
def inWait (r : Waiter) : Bool := r.stage == .waiting .free || r.stage == .waiting .locked

theorem admitted_iff {r : Waiter} : r.admitted = true ↔ r.stage.access ≠ .refused := by simp [admitted]

theorem admitted_of_inWait {r : Waiter} (h : r.inWait = true) : r.admitted = true := by
  simp only [inWait, Bool.or_eq_true, beq_iff_eq] at h
  rcases h with h | h <;> simp [admitted, h, Stage.access]

end Waiter

namespace WaitState

/-- During a transfer of a port with a blocking socket, at most one process waits on it. -/
def Exclusive (s : WaitState) : Prop :=
  0 < s.shared.status.transfer → s.shared.blocking = true → s.waiters.countP Waiter.inWait ≤ 1

/-- What a step must respect: at most one process has been let in when the counter rises from 0; a process that
    looks at it later is the only one, or is marked as blocking with all others under the lock; and no process
    forks with the lock. -/
def Orderly (s : WaitState) : WaitAct → Prop
  | .move i (.answer _) => s.shared.status.transfer ≤ 0 → s.shared.blocking = true →
    (∀ r ∈ s.waiters[i]?, r.sock.transfer = false) → s.waiters.countP Waiter.admitted ≤ 1
  | .move i (.check asks _ _) => 0 < s.shared.status.transfer → s.shared.blocking = true → asks = true →
    (∀ r ∈ s.waiters[i]?, r.sock.monitoring = true) → s.Clear i
  | .fork i => ∀ r ∈ s.waiters[i]?, r.sock.locked = false
  | _ => True

instance (s : WaitState) (i : Nat) : Decidable (s.Clear i) := inferInstanceAs (Decidable (_ ∨ _))

instance (s : WaitState) : (a : WaitAct) → Decidable (s.Orderly a)
  | .move _ (.answer _) | .move _ (.check ..) => inferInstanceAs (Decidable (_ → _))
  | .fork i => inferInstanceAs (Decidable (∀ r ∈ s.waiters[i]?, _))
  | .move _ (.enter _) | .move _ .wait | .move _ (.wake _) | .move _ .finish | .move _ .giveUp | .move _ .accept
  | .arrive | .inherit .. | .leave _ => inferInstanceAs (Decidable True)

/-- The invariant: it counts those that have been let in, whether they wait already or not. -/
structure Guarded (s : WaitState) : Prop where
  lock : s.OneLock
  one : 0 < s.shared.status.transfer → s.shared.blocking = true → s.waiters.countP Waiter.admitted ≤ 1

variable {s t : WaitState}

theorem Guarded.exclusive (h : s.Guarded) : s.Exclusive := fun ht hb =>
  Nat.le_trans (List.countP_mono_left fun _ _ => Waiter.admitted_of_inWait) (h.one ht hb)

theorem start_guarded (port : Nat) (pgid : Int) (blocking live : Bool) :
    (start port pgid blocking live).Guarded where
  lock := ⟨by simp [start, bindFirstSection, dsuSocketListInit], fun r hr => by
    cases List.mem_singleton.mp hr
    intro ha
    cases ha⟩
  one ht := by
    cases ht

/-- One process moves. -/
theorem Guarded.move {i : Nat} {m : Move} (h : s.Guarded) (hok : s.Orderly (.move i m))
    (hs : s.step (.move i m) = some t) (ht : 0 < t.shared.status.transfer) (hb : t.shared.blocking = true) :
    t.waiters.countP Waiter.admitted ≤ 1 := by
  obtain ⟨r, s', r', hr, hm, rfl⟩ := move_inv hs
  have hb : s.shared.blocking = true := hm.blocking ▸ hb
  have hset := countP_set_add (p := Waiter.admitted) hr r'
  simp only at ht ⊢
  by_cases hcheck : ∃ asks handed ok, m = .check asks handed ok
  · obtain ⟨asks, handed, ok, rfl⟩ := hcheck
    have ht : 0 < s.shared.status.transfer :=
      Int.lt_of_lt_of_le ht (hm.transfer.resolve_right fun hanswer => by simp at hanswer)
    by_cases hin : r'.stage.access = .refused
    · have hout : r'.admitted = false := by simp [Waiter.admitted, hin]
      have := h.one ht hb
      rw [hout] at hset
      simp only [Bool.false_eq_true, if_false] at hset
      omega
    · have hask : asks = true ∧ r.sock.monitoring = true := by
        cases hm with
        | refused => exact absurd rfl hin
        | free _ hmonitoring _ => exact ⟨rfl, hmonitoring⟩
        | locked _ hmonitoring _ => exact ⟨rfl, hmonitoring⟩
      have hclear := hok ht hb hask.1 fun x hx => by
        cases hr.symm.trans hx
        exact hask.2
      have hnobody := h.lock.alone hclear ht hr hm hin
      have hzero : s.waiters.countP Waiter.admitted = 0 :=
        List.countP_eq_zero.mpr fun x hx => by simp [Waiter.admitted, hnobody x hx]
      rw [if_pos (Waiter.admitted_iff.mpr hin)] at hset
      omega
  · have haccess := hm.access fun asks handed ok he => hcheck ⟨asks, handed, ok, he⟩
    have hmono : r'.admitted = true → r.admitted = true := by
      simpa only [Waiter.admitted_iff] using haccess
    have hle : s.waiters.countP Waiter.admitted ≤ 1 := by
      by_cases hpos : 0 < s.shared.status.transfer
      · exact h.one hpos hb
      · -- The counter rises: process `i` answers, and has not been counted.
        rcases hm.transfer with hle | ⟨⟨pgid, rfl⟩, hcounted⟩
        · exact absurd (Int.lt_of_lt_of_le ht hle) hpos
        · exact hok (Int.not_lt.mp hpos) hb fun x hx => by
            cases hr.symm.trans hx
            exact hcounted
    by_cases hin : r'.admitted = true
    · rw [if_pos hin, if_pos (hmono hin)] at hset
      omega
    · rw [if_neg hin] at hset
      omega

theorem Guarded.step {a : WaitAct} (h : s.Guarded) (hok : s.Orderly a) (hs : s.step a = some t) : t.Guarded where
  lock := h.lock.step hs fun i ha => by
    subst ha
    exact hok
  one ht hb := by
    cases a with
    | move i m => exact h.move hok hs ht hb
    | arrive =>
      cases hs
      exact h.one ht hb
    | inherit k live =>
      obtain ⟨pgid, rfl⟩ := inherit_inv hs
      simp only [List.countP_append]
      exact h.one ht hb
    | fork i =>
      obtain ⟨r, -, hstage, rfl⟩ := fork_inv hs
      have hout : ({ r with report := none } : Waiter).admitted = false := by simp [Waiter.admitted, hstage, Stage.access]
      simp only [List.countP_append, List.countP_singleton, hout]
      exact h.one ht hb
    | leave i =>
      obtain ⟨r, hr, rfl⟩ := leave_inv hs
      have herase := countP_eraseIdx_add (p := Waiter.admitted) hr
      have := h.one ht hb
      simp only
      omega

end WaitState

end OpenDSU
