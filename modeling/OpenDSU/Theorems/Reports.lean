import OpenDSU.Theorems.Exclusive

/-! Whether a pending connection is reported to one process at a time during a transfer.

An event call gives the descriptor lock back before it returns to the program, and the program accepts after
that. So the next process may take the lock and wait in between, and its wait reports the same connection. -/

namespace OpenDSU

/-- Its wait includes the socket, or it has a report that it has not made use of. -/
def Waiter.busy (r : Waiter) : Bool := r.admitted || r.report.isSome

theorem Waiter.busy_iff {r : Waiter} : r.busy = true ↔ r.stage.access ≠ .refused ∨ r.report ≠ none := by
  simp [busy, admitted, Option.isSome_iff_ne_none]

/-- A process becomes busy only where a section lets it in. -/
theorem Moved.busy {s s' : Shared} {r r' : Waiter} {m : Move} (h : Moved s r m s' r')
    (hin : (∃ asks handed ok, m = .check asks handed ok) → r'.stage.access = .refused) (hr' : r'.busy = true) :
    r.busy = true := by
  rw [Waiter.busy_iff] at hr' ⊢
  cases h with
  | enter hstage hle hlocked => simp [Stage.access] at hr'
  | refused hstage => exact Or.inr (hr'.resolve_left fun ha => ha rfl)
  | free hstage hmonitoring hfree => cases hin ⟨_, _, _, rfl⟩
  | locked hstage hmonitoring hsem => cases hin ⟨_, _, _, rfl⟩
  | wait hstage =>
    rw [hstage]
    exact hr'
  | reported hstage haccess hqueue =>
    left
    rw [hstage]
    exact haccess
  | woken hstage => exact Or.inr (hr'.resolve_left fun ha => ha rfl)
  | answer hstage => exact hr'
  | finish hstage => exact Or.inr (hr'.resolve_left fun ha => ha rfl)
  | giveUp hstage hreport => exact Or.inr (hr'.resolve_left fun ha => ha rfl)
  | accept hstage hqueue =>
    rw [hstage] at hr'
    simp [Stage.access] at hr'

namespace WaitState

/-- No two processes have a report of the same pending connection. -/
def ReportsApart (s : WaitState) : Prop :=
  s.waiters.Pairwise fun x y => ∀ c ∈ x.report, y.report ≠ some c

/-- A process with a report can accept at once. -/
def Acceptable (s : WaitState) : Prop :=
  ∀ r ∈ s.waiters, r.stage = .program → r.report ≠ none → (s.shared.move r .accept).isSome = true

/-- No process is in an event call or has a report, and the descriptor lock is one. -/
structure Quiet (s : WaitState) : Prop where
  stage : ∀ r ∈ s.waiters, r.stage = .program
  report : ∀ r ∈ s.waiters, r.report = none
  lock : s.shared.fdSem + s.waiters.countP (·.sock.locked) ≤ 1

/-- What a step must respect: a process is let in only where it is the only one and no report is left, and no
    process forks with the lock. -/
def Unshared (s : WaitState) : WaitAct → Prop
  | .move i (.check asks _ _) => asks = true → (∀ r ∈ s.waiters[i]?, r.sock.monitoring = true) →
    s.Clear i ∧ ∀ r ∈ s.waiters, r.report = none
  | .fork i => ∀ r ∈ s.waiters[i]?, r.sock.locked = false
  | _ => True

instance (s : WaitState) : (a : WaitAct) → Decidable (s.Unshared a)
  | .move _ (.check ..) => inferInstanceAs (Decidable (_ → _))
  | .fork i => inferInstanceAs (Decidable (∀ r ∈ s.waiters[i]?, _))
  | .move _ (.enter _) | .move _ .wait | .move _ (.wake _) | .move _ (.answer _) | .move _ .finish
  | .move _ .giveUp | .move _ .accept | .arrive | .inherit .. | .leave _ => inferInstanceAs (Decidable True)

/-- The program of the process accepts after a report only. -/
def Prompt (s : WaitState) : WaitAct → Prop
  | .move i .accept => ∀ r ∈ s.waiters[i]?, r.report ≠ none
  | _ => True

instance (s : WaitState) : (a : WaitAct) → Decidable (s.Prompt a)
  | .move i .accept => inferInstanceAs (Decidable (∀ r ∈ s.waiters[i]?, _))
  | .move _ (.enter _) | .move _ (.check ..) | .move _ .wait | .move _ (.wake _) | .move _ (.answer _)
  | .move _ .finish | .move _ .giveUp | .fork _ | .arrive | .inherit .. | .leave _ =>
    inferInstanceAs (Decidable True)

/-- The invariant: at most one process is let in or has a report. -/
structure Calm (s : WaitState) : Prop where
  lock : s.OneLock
  one : s.waiters.countP Waiter.busy ≤ 1

variable {s t : WaitState} {a : WaitAct}

theorem Quiet.calm (h : s.Quiet) : s.Calm where
  lock := ⟨h.lock, fun r hr ha => by
    rw [h.stage r hr] at ha
    cases ha⟩
  one := by
    have hnone : s.waiters.countP Waiter.busy = 0 := by
      refine List.countP_eq_zero.mpr fun r hr => ?_
      rw [Waiter.busy_iff, h.stage r hr, h.report r hr]
      simp [Stage.access]
    omega

theorem Calm.reportsApart (h : s.Calm) : s.ReportsApart := by
  refine (pairwise_of_countP_le_one h.one).imp fun {x y} hxy c hx hy => hxy ?_
  rw [Waiter.busy_iff, Waiter.busy_iff]
  exact ⟨Or.inr fun hn => by simp [hn] at hx, Or.inr fun hn => by simp [hn] at hy⟩

theorem Calm.step (h : s.Calm) (ht : 0 < s.shared.status.transfer) (hok : s.Unshared a) (hs : s.step a = some t) :
    t.Calm where
  lock := h.lock.step hs fun i ha => by
    subst ha
    exact hok
  one := by
    have hone := h.one
    cases a with
    | move i m =>
      obtain ⟨r, s', r', hr, hm, rfl⟩ := move_inv hs
      have hset := countP_set_add (p := Waiter.busy) hr r'
      simp only
      by_cases hin : (∃ asks handed ok, m = .check asks handed ok) ∧ r'.stage.access ≠ .refused
      · obtain ⟨⟨asks, handed, ok, rfl⟩, hin⟩ := hin
        have hask : asks = true ∧ r.sock.monitoring = true := by
          cases hm with
          | refused => exact absurd rfl hin
          | free _ hmonitoring _ => exact ⟨rfl, hmonitoring⟩
          | locked _ hmonitoring _ => exact ⟨rfl, hmonitoring⟩
        obtain ⟨hclear, hreport⟩ := hok hask.1 fun x hx => by
          cases hr.symm.trans hx
          exact hask.2
        have hnobody := h.lock.alone hclear ht hr hm hin
        have hzero : s.waiters.countP Waiter.busy = 0 :=
          List.countP_eq_zero.mpr fun x hx => by simp [Waiter.busy_iff, hnobody x hx, hreport x hx]
        split at hset <;> split at hset <;> omega
      · have hbusy := hm.busy fun hcheck => by
          by_contra hne
          exact hin ⟨hcheck, hne⟩
        by_cases hr' : r'.busy = true
        · rw [if_pos hr', if_pos (hbusy hr')] at hset
          omega
        · rw [if_neg hr'] at hset
          omega
    | arrive =>
      cases hs
      exact hone
    | inherit k live =>
      obtain ⟨pgid, rfl⟩ := inherit_inv hs
      simp only [List.countP_append]
      exact hone
    | fork i =>
      obtain ⟨r, -, hstage, rfl⟩ := fork_inv hs
      have hidle : ({ r with report := none } : Waiter).busy = false := by
        simp [Waiter.busy, Waiter.admitted, hstage, Stage.access]
      simp only [List.countP_append, List.countP_singleton, hidle]
      exact hone
    | leave i =>
      obtain ⟨r, hr, rfl⟩ := leave_inv hs
      have herase := countP_eraseIdx_add (p := Waiter.busy) hr
      simp only
      omega

/-! ### The connection of a report -/

/-- What was reported is what `accept` returns. -/
def HeadFirst (s : WaitState) : Prop := ∀ r ∈ s.waiters, ∀ c ∈ r.report, s.shared.queue.head? = some c

theorem HeadFirst.acceptable (h : s.HeadFirst) : s.Acceptable := by
  intro r hr hstage hreport
  obtain ⟨c, hc⟩ := Option.ne_none_iff_exists'.mp hreport
  have hhead := h r hr c hc
  have hne : s.shared.queue ≠ [] := by
    intro hnil
    rw [hnil] at hhead
    cases hhead
  simp [Shared.move, hstage, hne]

/-- A process that accepts takes the only report with it. -/
theorem HeadFirst.accept {i : Nat} {r r' : Waiter} {s' : Shared} (h : s.Calm) (hr : s.waiters[i]? = some r)
    (hreport : r.report ≠ none) (hm : Moved s.shared r .accept s' r') :
    HeadFirst { shared := s', waiters := s.waiters.set i r' } := by
  cases hm with
  | accept hstage hqueue =>
    have hset := countP_set_add (p := Waiter.busy) hr { r with report := none }
    have hone := h.one
    have hidle : ({ r with report := none } : Waiter).busy = false := by
      simp [Waiter.busy, Waiter.admitted, hstage, Stage.access]
    rw [if_pos (Waiter.busy_iff.mpr (Or.inr hreport)), hidle] at hset
    simp only [Bool.false_eq_true, if_false] at hset
    have hnobody := List.countP_eq_zero.mp
      (by omega : (s.waiters.set i { r with report := none }).countP Waiter.busy = 0)
    intro x hx c hc
    have := hnobody x hx
    rw [Waiter.busy_iff] at this
    exact absurd (Or.inr fun hn => by simp [hn] at hc) this

theorem HeadFirst.step (h : s.HeadFirst) (hcalm : s.Calm) (hok : s.Prompt a) (hs : s.step a = some t) :
    t.HeadFirst := by
  cases a with
  | move i m =>
    obtain ⟨r, s', r', hr, hm, rfl⟩ := move_inv hs
    by_cases hm' : m = .accept
    · subst hm'
      exact HeadFirst.accept hcalm hr (hok r hr) hm
    · have hqueue : s'.queue = s.shared.queue := by
        cases hm with
        | accept => exact absurd rfl hm'
        | finish => split <;> rfl
        | _ => rfl
      have hhead : ∀ c ∈ r'.report, s.shared.queue.head? = some c := by
        have hold := h r (List.mem_of_getElem? hr)
        cases hm with
        | enter => simp
        | accept => exact absurd rfl hm'
        | reported hstage haccess hq => simp [hq]
        | _ => exact hold
      intro x hx c hc
      rw [hqueue]
      rcases mem_set_cases hr hx with rfl | hx
      · exact hhead c hc
      · exact h x hx c hc
  | arrive =>
    cases hs
    intro x hx c hc
    simp [h x hx c hc]
  | inherit k live =>
    obtain ⟨pgid, rfl⟩ := inherit_inv hs
    intro x hx c hc
    rcases List.mem_append.mp hx with hx | hx
    · exact h x hx c hc
    · cases List.mem_singleton.mp hx
      cases hc
  | fork i =>
    obtain ⟨r, -, -, rfl⟩ := fork_inv hs
    intro x hx c hc
    rcases List.mem_append.mp hx with hx | hx
    · exact h x hx c hc
    · cases List.mem_singleton.mp hx
      cases hc
  | leave i =>
    obtain ⟨r, -, rfl⟩ := leave_inv hs
    exact fun x hx => h x (List.mem_of_mem_eraseIdx hx)

theorem Quiet.headFirst (h : s.Quiet) : s.HeadFirst := by
  intro r hr c hc
  rw [h.report r hr] at hc
  cases hc

/-! ### Runs -/

/-- The only process answers the request of another version and forks. -/
def toTransfer : List WaitAct :=
  [.move 0 (.enter true), .move 0 (.check false false true), .move 0 .wait, .move 0 (.wake false),
    .move 0 (.answer 20), .move 0 .finish, .fork 0]

/-- Process `i` waits for the socket, and its wait reports it. -/
def waitsOnce (i : Nat) : List WaitAct :=
  [.move i (.enter true), .move i (.check true false true), .move i .wait, .move i (.wake true), .move i .finish]

end WaitState

end OpenDSU
