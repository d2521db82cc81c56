import OpenDSU.Theorems.Calls

/-! Whether a wait gives back the descriptor locks that it took.

The pass that translates descriptors takes `fd_sem` for some records, and a later pass gives it back.
`select` and `ppoll` return before the later pass where their kernel wait fails, and `ppoll` also where it
times out. -/

open Relation

namespace OpenDSU

namespace World

/-- The successful `sem_trywait` operations of the process on a semaphore. -/
def trywaits (w : World) (sem : Nat) : Nat := w.log.count (.trywait sem)

def posts (w : World) (sem : Nat) : Nat := w.log.count (.post sem)

theorem trywaits_eq (w : World) (sem : Nat) : w.trywaits sem = w.lockOps.count (.trywait sem) :=
  (List.count_filter rfl).symm

theorem posts_eq (w : World) (sem : Nat) : w.posts sem = w.lockOps.count (.post sem) :=
  (List.count_filter rfl).symm

variable {w w' : World} {sem : Nat}

theorem trywaits_of_lockOps (h : w'.lockOps = w.lockOps) (s : Nat) : w'.trywaits s = w.trywaits s := by
  rw [trywaits_eq, trywaits_eq, h]

theorem posts_of_lockOps (h : w'.lockOps = w.lockOps) (s : Nat) : w'.posts s = w.posts s := by
  rw [posts_eq, posts_eq, h]

theorem Locks.trywaits (h : w.Locks sem w') (s : Nat) :
    w'.trywaits s = w.trywaits s + if s = sem then 1 else 0 := by
  rw [trywaits_eq, trywaits_eq, h.lockOps]
  by_cases hs : s = sem
  · simp [hs]
  · simp [hs, Ne.symm hs]

theorem Locks.posts (h : w.Locks sem w') (s : Nat) : w'.posts s = w.posts s := by
  rw [posts_eq, posts_eq, h.lockOps]
  simp

theorem Unlocks.trywaits (h : w.Unlocks sem w') (s : Nat) : w'.trywaits s = w.trywaits s := by
  rw [trywaits_eq, trywaits_eq, h.lockOps]
  simp

theorem Unlocks.posts (h : w.Unlocks sem w') (s : Nat) : w'.posts s = w.posts s + if s = sem then 1 else 0 := by
  rw [posts_eq, posts_eq, h.lockOps]
  by_cases hs : s = sem
  · simp [hs]
  · simp [hs, Ne.symm hs]

end World

def Unlocked (binds : List DsuSocket) : Prop := ∀ r ∈ binds, r.locked = false

/-- The number of records that are locked with a semaphore. -/
def holders (sem : Nat) (binds : List DsuSocket) : Nat := binds.countP fun r => r.locked && r.fdSem == sem

/-- The locked records are those for which a lock was taken since `w₀` and not given back. -/
structure LockBook (w₀ : World) (binds : List DsuSocket) (w : World) : Prop where
  held : ∀ r ∈ binds, r.locked = true → r.fdSem ∈ w.held
  single : ∀ sem, holders sem binds ≤ 1
  balance : ∀ sem, w.trywaits sem + w₀.posts sem = w.posts sem + w₀.trywaits sem + holders sem binds

variable {K : Kernel} {p q : Proc} {w₀ w w' : World} {binds pre post : List DsuSocket} {r r' : DsuSocket}

theorem holders_eq_zero_iff : (∀ sem, holders sem binds = 0) ↔ Unlocked binds := by
  simp only [holders, List.countP_eq_zero, Bool.and_eq_true, beq_iff_eq, not_and, Unlocked]
  constructor
  · intro h r hr
    cases hl : r.locked with
    | false => rfl
    | true => exact absurd rfl (h r.fdSem r hr hl)
  · intro h sem r hr hl
    rw [h r hr] at hl
    cases hl

theorem holders_split (sem : Nat) : holders sem (pre ++ r :: post) =
    holders sem pre + holders sem post + if r.locked && r.fdSem == sem then 1 else 0 := by
  simp only [holders, List.countP_append, List.countP_cons]
  omega

/-- Nobody else is locked with a semaphore that the process does not hold. -/
theorem LockBook.holders_of_free (h : LockBook w₀ binds w) {sem : Nat} (hfree : sem ∉ w.held) :
    holders sem binds = 0 := by
  refine List.countP_eq_zero.mpr fun r hr hl => hfree ?_
  simp only [Bool.and_eq_true, beq_iff_eq] at hl
  exact hl.2 ▸ h.held r hr hl.1

theorem lockBook_of_unlocked (h : Unlocked binds) (w : World) : LockBook w binds w := by
  have hnone := holders_eq_zero_iff.mpr h
  refine ⟨fun r hr hl => ?_, fun sem => ?_, fun sem => ?_⟩
  · rw [h r hr] at hl
    cases hl
  · rw [hnone sem]
    exact Nat.zero_le 1
  · rw [hnone sem]
    omega

/-! ### Effects -/

theorem LockBook.same (h : LockBook w₀ binds w) (hheld : w'.held = w.held) (hops : w'.lockOps = w.lockOps) :
    LockBook w₀ binds w' where
  held := by
    rw [hheld]
    exact h.held
  single := h.single
  balance sem := by
    rw [World.trywaits_of_lockOps hops, World.posts_of_lockOps hops]
    exact h.balance sem

/-- A record changes in nothing that concerns its lock. -/
theorem LockBook.replace (h : LockBook w₀ (pre ++ r :: post) w) (hl : r'.locked = r.locked) (hs : r'.fdSem = r.fdSem) :
    LockBook w₀ (pre ++ r' :: post) w := by
  have hholders : ∀ sem, holders sem (pre ++ r' :: post) = holders sem (pre ++ r :: post) := by
    intro sem
    rw [holders_split, holders_split, hl, hs]
  refine ⟨fun x hx hlocked => ?_, fun sem => ?_, fun sem => ?_⟩
  · rcases List.mem_append.mp hx with hx | hx
    · exact h.held x (List.mem_append_left _ hx) hlocked
    · rcases List.mem_cons.mp hx with rfl | hx
      · rw [hs]
        exact h.held r (by simp) (hl ▸ hlocked)
      · exact h.held x (by simp [hx]) hlocked
  · rw [hholders sem]
    exact h.single sem
  · rw [hholders sem]
    exact h.balance sem

theorem LockBook.lock (h : LockBook w₀ (pre ++ r :: post) w) (hw : w.Locks r.fdSem w') :
    LockBook w₀ (pre ++ { r with locked := true } :: post) w' := by
  have hnone := h.holders_of_free hw.free
  have hsplit := hnone
  rw [holders_split] at hsplit
  have hrest : ∀ sem, sem ≠ r.fdSem →
      holders sem (pre ++ { r with locked := true } :: post) = holders sem (pre ++ r :: post) := by
    intro sem hne
    simp [holders_split, hne.symm]
  have hself : holders r.fdSem (pre ++ { r with locked := true } :: post) = 1 := by
    simp only [holders_split, beq_self_eq_true, Bool.and_self, if_true]
    omega
  refine ⟨fun x hx hl => ?_, fun sem => ?_, fun sem => ?_⟩
  · rw [hw.held]
    rcases List.mem_append.mp hx with hx | hx
    · exact List.mem_cons_of_mem _ (h.held x (List.mem_append_left _ hx) hl)
    · rcases List.mem_cons.mp hx with rfl | hx
      · exact List.mem_cons_self
      · exact List.mem_cons_of_mem _ (h.held x (by simp [hx]) hl)
  · by_cases hsem : sem = r.fdSem
    · rw [hsem, hself]
    · rw [hrest sem hsem]
      exact h.single sem
  · have hb := h.balance sem
    rw [hw.trywaits, hw.posts]
    by_cases hsem : sem = r.fdSem
    · subst hsem
      rw [hself, if_pos rfl]
      omega
    · rw [hrest sem hsem, if_neg hsem]
      exact hb

theorem LockBook.unlock (h : LockBook w₀ (pre ++ r :: post) w) (hl : r.locked = true) (hw : w.Unlocks r.fdSem w') :
    LockBook w₀ (pre ++ { r with locked := false } :: post) w' := by
  have hone := h.single r.fdSem
  rw [holders_split, hl] at hone
  simp only [beq_self_eq_true, Bool.and_self, if_true] at hone
  have hothers : ∀ x, x ∈ pre ∨ x ∈ post → x.locked = true → x.fdSem ≠ r.fdSem := by
    intro x hx hxl hsem
    have hpos : 0 < holders r.fdSem pre + holders r.fdSem post := by
      rcases hx with hx | hx
      · exact Nat.add_pos_left (List.countP_pos_iff.mpr ⟨x, hx, by simp [hxl, hsem]⟩) _
      · exact Nat.add_pos_right _ (List.countP_pos_iff.mpr ⟨x, hx, by simp [hxl, hsem]⟩)
    omega
  have hrest : ∀ sem, sem ≠ r.fdSem →
      holders sem (pre ++ { r with locked := false } :: post) = holders sem (pre ++ r :: post) := by
    intro sem hne
    simp [holders_split, hne.symm]
  refine ⟨fun x hx hxl => ?_, fun sem => ?_, fun sem => ?_⟩
  · rw [hw.held]
    rcases List.mem_append.mp hx with hx | hx
    · exact (List.mem_erase_of_ne (hothers x (Or.inl hx) hxl)).mpr (h.held x (List.mem_append_left _ hx) hxl)
    · rcases List.mem_cons.mp hx with rfl | hx
      · cases hxl
      · exact (List.mem_erase_of_ne (hothers x (Or.inr hx) hxl)).mpr (h.held x (by simp [hx]) hxl)
  · by_cases hsem : sem = r.fdSem
    · rw [hsem, holders_split]
      simp only [Bool.false_and, Bool.false_eq_true, if_false]
      omega
    · rw [hrest sem hsem]
      exact h.single sem
  · have hb := h.balance sem
    rw [hw.trywaits, hw.posts]
    by_cases hsem : sem = r.fdSem
    · subst hsem
      rw [holders_split, hl] at hb
      rw [holders_split, if_pos rfl]
      simp only [beq_self_eq_true, Bool.and_self, if_true, Bool.false_and, Bool.false_eq_true, if_false] at hb ⊢
      omega
    · rw [hrest sem hsem, if_neg hsem]
      exact hb

theorem LockBook.effect (he : Effect (r, w) (r', w')) (h : LockBook w₀ (pre ++ r :: post) w) :
    LockBook w₀ (pre ++ r' :: post) w' := by
  cases he with
  | quiet hr hw => exact (h.replace hr.locked hr.fdSem).same hw.held hw.lockOps
  | quit _ hr hw => exact (h.replace hr.locked hr.fdSem).same hw.held hw.lockOps
  | accepted c hr hw => exact (h.replace hr.locked hr.fdSem).same hw.held hw.lockOps
  | closed c _ hr hw => exact (h.replace hr.locked hr.fdSem).same hw.held hw.lockOps
  | locked hr hw => exact (h.lock hw).replace hr.locked hr.fdSem
  | unlocked hl hr hw => exact (h.unlock hl hw).replace hr.locked hr.fdSem

theorem Proc.Evolves.lockBook (he : p.Evolves q) (h : LockBook w₀ p.binds p.world) : LockBook w₀ q.binds q.world :=
  Changes.invariant (I := LockBook w₀) (fun _ _ _ hw h => h.same hw.held hw.lockOps)
    (fun _ _ _ _ _ _ he h => h.effect he) he.changes h

/-! ### Before and after a wait -/

theorem unlocked_iff_map {l l' : List DsuSocket} (h : l'.map (·.locked) = l.map (·.locked)) :
    Unlocked l' ↔ Unlocked l := by
  have hmap : ∀ l : List DsuSocket, Unlocked l ↔ ∀ b ∈ l.map (·.locked), b = false := by simp [Unlocked]
  rw [hmap l', h, ← hmap l]

/-- Where no record is locked, a lock taken shows in the records. -/
theorem asks_cases {c c' : List DsuSocket × World} (h : ReflTransGen (Within Ask) c c') (hc : Unlocked c.1) :
    (Unlocked c'.1 ∧ c'.2.lockOps = c.2.lockOps) ∨
    (¬Unlocked c'.1 ∧ c.2.lockOps.length < c'.2.lockOps.length) := by
  induction h with
  | refl => exact Or.inl ⟨hc, rfl⟩
  | tail _ hs ih =>
    cases hs with
    | step pre post hs =>
      cases hs with
      | quiet hw =>
        rw [hw.lockOps]
        exact ih
      | locked hw =>
        refine Or.inr ⟨fun hu => by simpa using hu _ (List.mem_append_right _ List.mem_cons_self), ?_⟩
        rw [hw.lockOps, List.length_append, List.length_singleton]
        rcases ih with ⟨-, ho⟩ | ⟨-, ho⟩
        · rw [← ho]
          exact Nat.lt_succ_self _
        · exact Nat.lt_succ_of_lt ho

theorem unlocked_iff_of_asks {c c' : List DsuSocket × World} (h : ReflTransGen (Within Ask) c c')
    (hc : Unlocked c.1) : Unlocked c'.1 ↔ c'.2.lockOps = c.2.lockOps := by
  rcases asks_cases h hc with ⟨hu, ho⟩ | ⟨hu, hlt⟩
  · exact ⟨fun _ => ho, fun _ => hu⟩
  · refine ⟨fun h => absurd h hu, fun h => ?_⟩
    rw [h] at hlt
    exact absurd hlt (Nat.lt_irrefl _)

theorem unlockFd_locked (r : DsuSocket) (w : World) : (unlockFd r w).1.locked = false := by
  unfold unlockFd
  split
  · rfl
  · rename_i hl
    simpa using hl

theorem dsuPostSelect_locked (r : DsuSocket) (s : SelectPass) : (dsuPostSelect r s).1.locked = false := by
  have h := unlockFd_locked r s.world
  unfold dsuPostSelect
  simp only
  split
  · exact h
  · exact h

theorem dsuMonitorFd_locked (pgid : Int) (r : DsuSocket) (w : World) :
    (dsuMonitorFd K pgid r w).1.locked = r.locked := by
  unfold dsuMonitorFd
  simp only
  split
  · rcases monitorSection_cases pgid ((w.waitStatus K r.port).2.status r.port) r with
      ⟨-, he⟩ | ⟨-, -, he⟩ | ⟨-, -, he⟩ <;> rw [he]
  · rfl

theorem dsuInitializeEvent_unlocked (h : Unlocked p.binds) : Unlocked (dsuInitializeEvent K p).binds := by
  have hlive : (dsuGoLive K p).binds.map (·.locked) = p.binds.map (·.locked) := by
    unfold dsuGoLive
    split
    · rfl
    · exact walk_map (fun _ _ => rfl) _ _
  have hmon := walk_map (dsuMonitorFd_locked (K := K) p.pgid) (dsuGoLive K p).binds (dsuGoLive K p).world
  have hpgid : (dsuGoLive K p).pgid = p.pgid := (dsuGoLive_evolves K p).pgid
  rw [← unlocked_iff_map hlive, ← unlocked_iff_map hmon] at h
  unfold dsuInitializeEvent
  simp only [hpgid]
  split
  · exact h
  · exact h

/-! ### The last wait of a call -/

/-- A kernel wait of an event call: the kernel's side when the translation of the descriptors begins, the
    process at the wait, and whether the call goes on to the handlers after it. -/
structure Wait where
  start : World
  proc : Proc
  goesOn : Bool

/-- The call goes on after the wait, or had no `sem_trywait` succeed before it. -/
def Wait.GivesBack (wait : Wait) : Prop := wait.goesOn = true ∨ wait.proc.world.lockOps = wait.start.lockOps

section Waits
variable (K) (p)

def selectWait (nfds : Int) (sets : FdSets) (timeout : Option Nat) : Wait :=
  let wait := selectAsk K p nfds sets timeout
  { start := p.world
    proc := wait.proc
    goesOn := (wait.proc.world.select K wait.maxFds wait.asked wait.timeout).1.isSome }

def ppollWait (fds : List PollFd) (timeout : Option Nat) : Wait :=
  let wait := pollAsk K p fds
  { start := p.world
    proc := wait.proc
    goesOn := (wait.proc.world.ppoll K wait.fds wait.nfds timeout).1.any (·.2 ≠ 0) }

/-- An error of the wait is handed to `dsu_post_epoll`, too. -/
def epollWaitWait (epfd : Int) : Wait where
  start := p.world
  proc := { p with binds := (dsuPreEpoll K epfd p.binds p.world).1, world := (dsuPreEpoll K epfd p.binds p.world).2 }
  goesOn := true

def Proc.lastWait : Call → Option Wait
  | .select nfds sets timeout rounds =>
    let p := dsuInitializeEvent K (selectLast K nfds sets timeout rounds p)
    if p.exited then none else some (selectWait K p nfds sets timeout)
  | .ppoll fds timeout =>
    let p := dsuInitializeEvent K p
    if p.exited then none else some (ppollWait K p fds timeout)
  | .epollWait epfd _ _ _ =>
    let p := dsuInitializeEvent K p
    if p.exited then none else some (epollWaitWait K p epfd)
  | _ => none

end Waits

variable {nfds : Int} {sets : FdSets} {timeout : Option Nat}

theorem selectServe_unlocked (found : FdSets) : Unlocked (selectServe K p found).2.2.binds :=
  forall_mem_walk (f := dsuPostSelect) dsuPostSelect_locked _ _

theorem selectRest_unlocked_iff (h : Unlocked p.binds) :
    Unlocked (selectRest K p nfds sets timeout).1.binds ↔ (selectWait K p nfds sets timeout).GivesBack := by
  have hasked := unlocked_iff_of_asks (selectAsk_asks K p nfds sets timeout) h
  unfold selectRest Wait.GivesBack selectWait
  simp only
  cases hfound : ((selectAsk K p nfds sets timeout).proc.world.select K (selectAsk K p nfds sets timeout).maxFds
    (selectAsk K p nfds sets timeout).asked (selectAsk K p nfds sets timeout).timeout).1 with
  | none => simpa using hasked
  | some found => simpa using selectServe_unlocked found

theorem ppollRest_unlocked_iff {fds : List PollFd} (h : Unlocked p.binds) :
    Unlocked (ppollRest K fds timeout p).1.binds ↔ (ppollWait K p fds timeout).GivesBack := by
  have hasked := unlocked_iff_of_asks (pollAsk_asks K p fds) h
  unfold ppollRest Wait.GivesBack ppollWait
  simp only
  cases hfound : ((pollAsk K p fds).proc.world.ppoll K (pollAsk K p fds).fds (pollAsk K p fds).nfds timeout).1 with
  | none => simpa using hasked
  | some found =>
    by_cases hn : found.2 = 0
    · simpa [hn] using hasked
    · have hserve : ∀ p', Unlocked (pollServe K p' found.1 fds.length (pollAsk K p fds).nfds).binds :=
        fun p' => forall_mem_walk (f := dsuUnlock) unlockFd_locked _ _
      simp only [hn, if_false, Option.any_some, ne_eq, not_false_eq_true, decide_true, true_or, iff_true]
      split
      · exact hserve _
      · exact hserve _

theorem dsuPostEpoll_unlocked (epfd : Int) (es : List Event) (events : Nat → Event) :
    Unlocked (dsuPostEpoll K epfd p es events).1.binds := by
  have hkeep : ∀ r w, (dsuEpollOriginalfd K epfd r w).1.locked = r.locked := by
    intro r w
    unfold dsuEpollOriginalfd
    split <;> rfl
  have hmap := walk_map (f := dsuEpollOriginalfd K epfd) (g := fun r => r.locked) hkeep
  exact (unlocked_iff_map (hmap _ _)).mpr (forall_mem_walk (f := dsuEpollUnlock) unlockFd_locked _ _)

theorem epollRest_unlocked {epfd : Int} {events : Nat → Event} {maxevents : Nat} :
    Unlocked (epollRest K epfd events maxevents timeout p).1.binds := by
  unfold epollRest
  simp only
  split
  · exact dsuPostEpoll_unlocked _ _ events
  · exact dsuPostEpoll_unlocked _ _ events

/-- A restart comes after the handlers. -/
theorem selectRound_unlocked (hagain : (selectRound K p nfds sets timeout).2 = .again) :
    Unlocked (selectRound K p nfds sets timeout).1.binds := by
  unfold selectRound selectRest at hagain ⊢
  simp only at hagain ⊢
  split at hagain
  · cases hagain
  · rename_i hexit
    rw [if_neg hexit]
    split at hagain
    · cases hagain
    · exact selectServe_unlocked _

/-! ### The calls -/

variable {call : Call}

theorem step_unlocked_iff (hcall : call.waits = true) (h : Unlocked p.binds) (hs : p.step K call = some q) :
    Unlocked q.binds ↔ ∀ wait ∈ p.lastWait K call, wait.GivesBack := by
  cases call with
  | select nfds sets timeout rounds =>
    obtain ⟨done, hdone, rfl⟩ := Proc.step_select hs
    have hlast : Unlocked (selectLast K nfds sets timeout rounds p).binds :=
      selectLast_inv (I := fun p => Unlocked p.binds) (fun _ hagain _ => selectRound_unlocked hagain) rounds p h
    have hinit := dsuInitializeEvent_unlocked (K := K) hlast
    rw [(select_eq_last hdone).1]
    unfold Proc.lastWait selectRound
    simp only
    split
    · simpa using hinit
    · simpa using selectRest_unlocked_iff hinit
  | ppoll fds timeout =>
    have hinit := dsuInitializeEvent_unlocked (K := K) h
    rw [← Proc.step_ppoll hs]
    unfold Proc.lastWait ppoll
    simp only
    split
    · simpa using hinit
    · simpa using ppollRest_unlocked_iff hinit
  | epollWait epfd events maxevents timeout =>
    have hinit := dsuInitializeEvent_unlocked (K := K) h
    rw [← Proc.step_epollWait hs]
    unfold Proc.lastWait epollWait
    simp only
    split
    · simpa using hinit
    · simpa [epollWaitWait, Wait.GivesBack] using epollRest_unlocked
  | socket => cases hcall
  | bind => cases hcall
  | accept => cases hcall
  | close => cases hcall
  | epollCtl => cases hcall

/-- As many `sem_post` as successful `sem_trywait` operations on every semaphore. -/
def Proc.Balanced (p : Proc) : Prop := ∀ sem, p.world.posts sem = p.world.trywaits sem

structure Proc.LocksReturned (p : Proc) : Prop where
  unlocked : Unlocked p.binds
  balanced : p.Balanced

/-- A wait that begins without a locked record returns with the locks given back if and only if those of
    earlier calls were, and its last round gives back. -/
theorem locksReturned_iff (hcall : call.waits = true) (h : Unlocked p.binds) (hs : p.step K call = some q) :
    q.LocksReturned ↔ p.Balanced ∧ ∀ wait ∈ p.lastWait K call, wait.GivesBack := by
  have hbook := (step_evolves hcall hs).lockBook (lockBook_of_unlocked h p.world)
  have hunlocked := step_unlocked_iff hcall h hs
  have hbalance : Unlocked q.binds → (q.Balanced ↔ p.Balanced) := by
    intro hq
    refine forall_congr' fun sem => ?_
    have hb := hbook.balance sem
    rw [holders_eq_zero_iff.mpr hq sem] at hb
    omega
  constructor
  · rintro ⟨hq, hbal⟩
    exact ⟨(hbalance hq).mp hbal, hunlocked.mp hq⟩
  · rintro ⟨hbal, hwaits⟩
    have hq := hunlocked.mpr hwaits
    exact ⟨hq, (hbalance hq).mpr hbal⟩

/-- Another version asks for the descriptors of every port, the bound sockets are blocking, and nothing
    becomes ready. -/
def transferKernel : Kernel :=
  { soloKernel with
    blocking := fun _ _ => true
    status := fun w port => { w.status port with transfer := 1 } }

/-- An `epoll_wait` gives back the lock that it took for socket 3. -/
theorem locksReturned_by_epollWait : ∃ p q,
    (procMachine transferKernel).run .loaded
      [.socket, .bind 3 8080, .epollCtl 9 .add 3 { events := epollin, data := { fd := 3, hi := 0 } }] = some p ∧
    p.step transferKernel (.epollWait 9 (fun _ => { ev := noEvent, origin := none }) 1 none) = some q ∧
    q.world.trywaits 4 = 1 ∧
    (q.LocksReturned ↔ p.Balanced ∧
      ∀ wait ∈ p.lastWait transferKernel (.epollWait 9 (fun _ => { ev := noEvent, origin := none }) 1 none),
        wait.GivesBack) := by
  refine ⟨_, _, rfl, rfl, rfl, locksReturned_iff rfl ?_ rfl⟩
  intro r hr
  cases List.mem_singleton.mp hr
  rfl

/-- A `ppoll` that times out returns with socket 3 locked and its semaphore taken. -/
theorem lock_outlives_timeout : ∃ p q, (procMachine transferKernel).run .loaded [.socket, .bind 3 8080] = some p ∧
    Unlocked p.binds ∧ p.step transferKernel (.ppoll [{ fd := 3, events := pollin, revents := 0 }] (some 0)) = some q ∧
    q.exited = false ∧ q.binds.map (·.locked) = [true] ∧ q.world.trywaits 4 = 1 ∧ q.world.posts 4 = 0 ∧
    ¬q.LocksReturned := by
  refine ⟨_, _, rfl, ?_, rfl, rfl, rfl, rfl, rfl, ?_⟩
  · intro r hr
    cases List.mem_singleton.mp hr
    rfl
  · intro h
    exact absurd (h.unlocked _ List.mem_cons_self) (by decide)

end OpenDSU
