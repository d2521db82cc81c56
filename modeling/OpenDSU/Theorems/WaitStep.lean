import OpenDSU.Wait
import OpenDSU.Lib.Places

/-! What each step of a process that waits does, read off `Shared.move` once, and what it leaves of the
descriptor lock. -/

namespace OpenDSU

/-- How the wait of a process includes the socket, from the section that decides to the end of the wait. -/
def Stage.access : Stage → Access
  | .checked access | .waiting access => access
  | _ => .refused

/-- A step of the process `r` and what it leaves. -/
inductive Moved (s : Shared) (r : Waiter) : Move → Shared → Waiter → Prop
  | enter {ok : Bool} {status : Status} {sock : DsuSocket} (hstage : r.stage = .program)
      (hle : status.transfer ≤ s.status.transfer) (hlocked : sock.locked = r.sock.locked) :
    Moved s r (.enter ok) { s with status := status }
      { r with sock := sock, live := true, stage := .begun, report := none }
  | refused {asks handed ok : Bool} (hstage : r.stage = .begun) :
    Moved s r (.check asks handed ok) s { r with stage := .checked .refused }
  /-- The section finds no transfer, or a record that is not marked as blocking. -/
  | free {handed : Bool} (hstage : r.stage = .begun) (hmonitoring : r.sock.monitoring = true)
      (hfree : 0 < s.status.transfer → r.sock.blocking = false) :
    Moved s r (.check true handed true) s { r with stage := .checked .free }
  | locked {handed : Bool} (hstage : r.stage = .begun) (hmonitoring : r.sock.monitoring = true)
      (hsem : 0 < s.fdSem) :
    Moved s r (.check true handed true) { s with fdSem := s.fdSem - 1 } (r.decided .locked)
  | wait {access : Access} (hstage : r.stage = .checked access) : Moved s r .wait s { r with stage := .waiting access }
  | reported {access : Access} {c : Nat} {queue : List Nat} (hstage : r.stage = .waiting access)
      (haccess : access ≠ .refused) (hqueue : s.queue = c :: queue) :
    Moved s r (.wake true) s { r with stage := .serving, report := some c }
  | woken {access : Access} (hstage : r.stage = .waiting access) : Moved s r (.wake false) s { r with stage := .serving }
  | answer {pgid : Int} (hstage : r.stage = .serving) :
    Moved s r (.answer pgid)
      { s with status := (answerSection s.status r.sock).1, requesters := s.requesters ++ [pgid] }
      { r with sock := (answerSection s.status r.sock).2 }
  | finish (hstage : r.stage = .serving) :
    Moved s r .finish (if r.sock.locked then { s with fdSem := s.fdSem + 1 } else s)
      { r with sock := { r.sock with locked := false }, stage := .program }
  | giveUp (hstage : r.stage = .serving) (hreport : r.report = none) : Moved s r .giveUp s { r with stage := .program }
  | accept {c : Nat} {queue : List Nat} (hstage : r.stage = .program) (hqueue : s.queue = c :: queue) :
    Moved s r .accept { s with queue := queue } { r with report := none }

variable {s s' : Shared} {r r' : Waiter} {m : Move}

/-- `dsu_monitor_fd` does not raise the counter, nor touch the lock. -/
theorem monitorSection_bounds (pgid : Int) (st : Status) (x : DsuSocket) :
    (monitorSection pgid st x).1.transfer ≤ st.transfer ∧ (monitorSection pgid st x).2.locked = x.locked := by
  rcases monitorSection_cases pgid st x with ⟨-, he⟩ | ⟨-, -, he⟩ | ⟨-, -, he⟩ <;> rw [he]
  · exact ⟨by simp only; omega, rfl⟩
  · exact ⟨Int.le_refl _, rfl⟩
  · exact ⟨Int.le_refl _, rfl⟩

theorem answerSection_locked (st : Status) (x : DsuSocket) : (answerSection st x).2.locked = x.locked := by
  unfold answerSection
  split <;> rfl

/-- What the section decides: it takes the lock, or lets the process in freely, or refuses it. -/
theorem admitSection_cases (st : Status) (handed : Bool) (x : DsuSocket) (fdSem : Nat) :
    (0 < fdSem ∧ admitSection st handed x fdSem = (.locked, fdSem - 1)) ∨
    ((0 < st.transfer → x.blocking = false) ∧ admitSection st handed x fdSem = (.free, fdSem)) ∨
    admitSection st handed x fdSem = (.refused, fdSem) := by
  unfold admitSection
  split
  · split
    · rename_i hsem
      exact Or.inl ⟨hsem, rfl⟩
    · exact Or.inr (Or.inr rfl)
  · rename_i hfree
    exact Or.inr (Or.inl ⟨fun ht => by simpa [ht] using hfree, rfl⟩)

theorem check_moved {asks handed ok : Bool} (h : s.move r (.check asks handed ok) = some (s', r')) :
    Moved s r (.check asks handed ok) s' r' := by
  simp only [Shared.move] at h
  split at h
  swap
  · cases h
  rename_i hstage
  split at h
  · rename_i hasks
    simp only [Bool.and_eq_true] at hasks
    obtain ⟨⟨rfl, hmonitoring⟩, rfl⟩ := hasks
    rcases admitSection_cases s.status handed r.sock s.fdSem with ⟨hsem, he⟩ | ⟨hfree, he⟩ | he <;> rw [he] at h
    · cases h
      exact .locked hstage hmonitoring hsem
    · cases h
      exact .free hstage hmonitoring hfree
    · cases h
      exact .refused hstage
  · cases h
    exact .refused hstage

theorem moved_of_move (h : s.move r m = some (s', r')) : Moved s r m s' r' := by
  cases m with
  | check asks handed ok => exact check_moved h
  | enter ok =>
    simp only [Shared.move] at h
    split at h
    swap
    · cases h
    rename_i hstage
    have hlocked : (if r.live then r.sock else { r.sock with blocking := s.blocking }).locked = r.sock.locked := by
      split <;> rfl
    generalize (if r.live then r.sock else { r.sock with blocking := s.blocking }) = sock at h hlocked
    cases ok
    · cases h
      exact .enter hstage (Int.le_refl _) hlocked
    · have hbounds := monitorSection_bounds r.pgid s.status sock
      cases h
      exact .enter hstage hbounds.1 (hbounds.2.trans hlocked)
  | wait =>
    simp only [Shared.move] at h
    split at h
    · rename_i access hstage
      cases h
      exact .wait hstage
    · cases h
  | wake ready =>
    simp only [Shared.move] at h
    split at h
    swap
    · cases h
    rename_i access hstage
    cases ready
    · cases h
      exact .woken hstage
    · simp only [if_true] at h
      split at h
      swap
      · cases h
      rename_i hready
      cases hqueue : s.queue with
      | nil => exact absurd hqueue hready.2
      | cons c queue =>
        rw [hqueue] at h
        cases h
        exact .reported hstage hready.1 hqueue
  | answer pgid =>
    simp only [Shared.move] at h
    split at h
    · rename_i hstage
      cases h
      exact .answer hstage
    · cases h
  | finish =>
    simp only [Shared.move] at h
    split at h
    · rename_i hstage
      cases h
      exact .finish hstage
    · cases h
  | giveUp =>
    simp only [Shared.move] at h
    split at h
    · rename_i hstage
      cases h
      exact .giveUp hstage.1 hstage.2
    · cases h
  | accept =>
    simp only [Shared.move] at h
    split at h
    swap
    · cases h
    rename_i hready
    cases hqueue : s.queue with
    | nil => exact absurd hqueue hready.2
    | cons c queue =>
      rw [hqueue] at h
      cases h
      exact .accept hready.1 hqueue

/-! ### The descriptor lock -/

/-- 1 for a record that holds the lock. -/
def Waiter.share (r : Waiter) : Nat := if r.sock.locked then 1 else 0

theorem Moved.blocking (h : Moved s r m s' r') : s'.blocking = s.blocking := by
  cases h with
  | finish hstage => split <;> rfl
  | _ => rfl

/-- A step makes no lock. -/
theorem Moved.lock (h : Moved s r m s' r') : s'.fdSem + r'.share ≤ s.fdSem + r.share := by
  cases h with
  | enter hstage hle hlocked => simp [Waiter.share, hlocked]
  | locked hstage hmonitoring hsem =>
    have hone : (r.decided .locked).share = 1 := rfl
    simp only [hone]
    omega
  | answer hstage => simp [Waiter.share, answerSection_locked]
  | finish hstage => cases hlocked : r.sock.locked <;> simp [Waiter.share, hlocked]
  | _ => exact Nat.le_refl _

/-- A process that is let in under the lock has it. -/
theorem Moved.held (h : Moved s r m s' r') (hr : r.stage.access = .locked → r.sock.locked = true) :
    r'.stage.access = .locked → r'.sock.locked = true := by
  cases h with
  | locked hstage hmonitoring hsem => exact fun _ => rfl
  | wait hstage =>
    rw [hstage] at hr
    exact hr
  | answer hstage =>
    intro ha
    rw [hstage] at ha
    cases ha
  | accept hstage hqueue => exact hr
  | _ =>
    intro ha
    cases ha

/-- Only the section before the wait lets a process in. -/
theorem Moved.access (h : Moved s r m s' r') (hm : ∀ asks handed ok, m ≠ .check asks handed ok) :
    r'.stage.access ≠ .refused → r.stage.access ≠ .refused := by
  cases h with
  | refused hstage => exact absurd rfl (hm _ _ _)
  | free hstage hmonitoring hfree => exact absurd rfl (hm _ _ _)
  | locked hstage hmonitoring hsem => exact absurd rfl (hm _ _ _)
  | wait hstage =>
    rw [hstage]
    exact id
  | answer hstage => exact id
  | accept hstage hqueue => exact id
  | _ => exact fun ha => absurd rfl ha

/-- Only an answer raises the counter, by a record that has not been counted. -/
theorem Moved.transfer (h : Moved s r m s' r') : s'.status.transfer ≤ s.status.transfer ∨
    ((∃ pgid, m = .answer pgid) ∧ r.sock.transfer = false) := by
  cases h with
  | enter hstage hle hlocked => exact Or.inl hle
  | answer hstage =>
    cases htransfer : r.sock.transfer
    · exact Or.inr ⟨⟨_, rfl⟩, rfl⟩
    · left
      simp [answerSection, htransfer]
  | finish hstage =>
    left
    split <;> exact Int.le_refl _
  | _ => exact Or.inl (Int.le_refl _)

/-! ### Steps of the processes together -/

namespace WaitState
variable {s t : WaitState}

theorem move_inv {i : Nat} {m : Move} (h : s.step (.move i m) = some t) :
    ∃ r s' r', s.waiters[i]? = some r ∧ Moved s.shared r m s' r' ∧
      t = { shared := s', waiters := s.waiters.set i r' } := by
  obtain ⟨r, hr, h⟩ := Option.bind_eq_some_iff.mp h
  obtain ⟨⟨s', r'⟩, hm, rfl⟩ := Option.map_eq_some_iff.mp h
  exact ⟨r, s', r', hr, moved_of_move hm, rfl⟩

theorem inherit_inv {k : Nat} {live : Bool} (h : s.step (.inherit k live) = some t) :
    ∃ pgid, t = {
      shared := { s.shared with requesters := s.shared.requesters.eraseIdx k }
      waiters := s.waiters ++ [{
        pgid := pgid
        sock := bindInheritSection pgid s.shared.status { dsuSocketListInit with port := s.shared.port }
        live := live
        stage := .program
        report := none }] } := by
  obtain ⟨pgid, -, rfl⟩ := Option.map_eq_some_iff.mp h
  exact ⟨pgid, rfl⟩

theorem fork_inv {i : Nat} (h : s.step (.fork i) = some t) :
    ∃ r, s.waiters[i]? = some r ∧ r.stage = .program ∧
      t = { s with waiters := s.waiters ++ [{ r with report := none }] } := by
  obtain ⟨r, hr, h⟩ := Option.bind_eq_some_iff.mp h
  split at h
  · rename_i hstage
    cases h
    exact ⟨r, hr, hstage, rfl⟩
  · cases h

theorem leave_inv {i : Nat} (h : s.step (.leave i) = some t) :
    ∃ r, s.waiters[i]? = some r ∧ t = { s with waiters := s.waiters.eraseIdx i } := by
  obtain ⟨r, hr, rfl⟩ := Option.map_eq_some_iff.mp h
  exact ⟨r, hr, rfl⟩

/-- The lock is free, or one record has it; a process that is let in under it is the one. -/
structure OneLock (s : WaitState) : Prop where
  count : s.shared.fdSem + s.waiters.countP (·.sock.locked) ≤ 1
  held : ∀ r ∈ s.waiters, r.stage.access = .locked → r.sock.locked = true

/-- The lock is kept by every step but the fork of a process that has it. -/
theorem OneLock.step {a : WaitAct} (h : s.OneLock) (hs : s.step a = some t)
    (hfork : ∀ i, a = .fork i → ∀ r ∈ s.waiters[i]?, r.sock.locked = false) : t.OneLock := by
  have hcount := h.count
  cases a with
  | move i m =>
    obtain ⟨r, s', r', hr, hm, rfl⟩ := move_inv hs
    refine ⟨?_, fun x hx => ?_⟩
    · have hset := countP_set_add (p := fun r : Waiter => r.sock.locked) hr r'
      have hlock := hm.lock
      simp only [Waiter.share] at hset hlock ⊢
      omega
    · rcases mem_set_cases hr hx with rfl | hx
      · exact hm.held (h.held r (List.mem_of_getElem? hr))
      · exact h.held x hx
  | arrive =>
    cases hs
    exact ⟨hcount, h.held⟩
  | inherit k live =>
    obtain ⟨pgid, rfl⟩ := inherit_inv hs
    refine ⟨?_, fun x hx => ?_⟩
    · simp only [List.countP_append]
      exact hcount
    · rcases List.mem_append.mp hx with hx | hx
      · exact h.held x hx
      · cases List.mem_singleton.mp hx
        exact fun ha => by cases ha
  | fork i =>
    obtain ⟨r, hr, hstage, rfl⟩ := fork_inv hs
    have hlocked := hfork i rfl r hr
    refine ⟨?_, fun x hx => ?_⟩
    · simp only [List.countP_append, List.countP_singleton, hlocked]
      exact hcount
    · rcases List.mem_append.mp hx with hx | hx
      · exact h.held x hx
      · cases List.mem_singleton.mp hx
        intro ha
        rw [hstage] at ha
        cases ha
  | leave i =>
    obtain ⟨r, hr, rfl⟩ := leave_inv hs
    refine ⟨?_, fun x hx => h.held x (List.mem_of_mem_eraseIdx hx)⟩
    have herase := countP_eraseIdx_add (p := fun r : Waiter => r.sock.locked) hr
    simp only
    omega

/-- What the section of process `i` relies on: nobody has been let in, or its record is marked as blocking and
    everybody who has been let in has the lock. -/
def Clear (s : WaitState) (i : Nat) : Prop :=
  (∀ r ∈ s.waiters, r.stage.access = .refused) ∨
  (∀ r ∈ s.waiters[i]?, r.sock.blocking = true) ∧ ∀ r ∈ s.waiters, r.stage.access ≠ .free

/-- During a transfer such a section lets a process in only where it is the only one. -/
theorem OneLock.alone {i : Nat} {r r' : Waiter} {s' : Shared} {asks handed ok : Bool} (h : s.OneLock)
    (hclear : s.Clear i) (ht : 0 < s.shared.status.transfer) (hr : s.waiters[i]? = some r)
    (hm : Moved s.shared r (.check asks handed ok) s' r') (hin : r'.stage.access ≠ .refused) :
    ∀ x ∈ s.waiters, x.stage.access = .refused := by
  rcases hclear with hnone | ⟨hblocking, hlocked⟩
  · exact hnone
  cases hm with
  | refused hstage => exact absurd rfl hin
  | free hstage hmonitoring hfree =>
    rw [hblocking r hr] at hfree
    cases hfree ht
  | locked hstage hmonitoring hsem =>
    -- The lock was free, so no record had it.
    have hcount := h.count
    have hnobody := List.countP_eq_zero.mp (by omega : s.waiters.countP (·.sock.locked) = 0)
    intro x hx
    cases hx' : x.stage.access with
    | refused => rfl
    | free => exact absurd hx' (hlocked x hx)
    | locked => exact absurd (h.held x hx hx') (hnobody x hx)

end WaitState

end OpenDSU
