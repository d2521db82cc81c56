import OpenDSU.Theorems.Effects

/-! What each call leaves of a process: an event call changes its records by effects, a call on a socket
changes one record or moves it. -/

open Relation

namespace OpenDSU

/-- What the passes of an event call leave of a process. -/
structure Proc.Evolves (p q : Proc) : Prop where
  pgid : q.pgid = p.pgid
  sockets : q.sockets = p.sockets
  orphans : q.orphans = p.orphans
  changes : Changes (p.binds, p.world) (q.binds, q.world)

theorem Proc.Evolves.refl (p : Proc) : p.Evolves p := ⟨rfl, rfl, rfl, .refl⟩

theorem Proc.Evolves.trans {p q u : Proc} (h : p.Evolves q) (h' : q.Evolves u) : p.Evolves u :=
  ⟨h'.pgid.trans h.pgid, h'.sockets.trans h.sockets, h'.orphans.trans h.orphans, h.changes.trans h'.changes⟩

/-- The kernel's side alone moves on. -/
theorem Proc.Evolves.world {p q : Proc} (h : p.Evolves q) {w : World} (hw : q.world.Same w) :
    p.Evolves { q with world := w } :=
  ⟨h.pgid, h.sockets, h.orphans, h.changes.trans (Changes.quiet hw)⟩

section Calls
variable (K : Kernel) (p : Proc)

/-! ### Event calls -/

theorem dsuActivateProcess_changes (l : List DsuSocket) (w : World) : Changes (l, w) (l, dsuActivateProcess K w) := by
  have hw := w.same_waitWorkers K
  unfold dsuActivateProcess
  simp only
  split
  · exact Changes.quiet ⟨hw.fdt, hw.files, hw.held, hw.lockOps, hw.named⟩
  · exact Changes.quiet hw

theorem dsuGoLive_evolves : p.Evolves (dsuGoLive K p) := by
  unfold dsuGoLive
  split
  · exact .refl p
  · exact ⟨rfl, rfl, rfl, (dsuActivateProcess_changes K p.binds p.world).trans
      (Changes.of_walk_world (dsuConfigureSocket_effects K) _ _)⟩

/-- The version of the port that the detection compares the record with. -/
def seenVersion (r : DsuSocket) (w : World) : Int :=
  if K.semWait w then ((w.waitStatus K r.port).2.status r.port).version else r.version

theorem dsuTerminationDetection_cons (r : DsuSocket) (l : List DsuSocket) (w : World) :
    dsuTerminationDetection K (r :: l) w =
      if r.forbidsExit (seenVersion K r w) then (false, (w.waitStatus K r.port).2)
      else dsuTerminationDetection K l (w.waitStatus K r.port).2 :=
  rfl

theorem same_terminationDetection (l : List DsuSocket) (w : World) :
    w.Same (dsuTerminationDetection K l w).2 := by
  induction l generalizing w with
  | nil => exact .refl w
  | cons r l ih =>
    rw [dsuTerminationDetection_cons]
    split
    · exact w.same_waitStatus K r.port
    · exact (w.same_waitStatus K r.port).trans (ih _)

theorem dsuTerminate_evolves : p.Evolves (dsuTerminate K p) := by
  have hw := p.world.same_waitWorkers K
  refine ⟨rfl, rfl, rfl, ?_⟩
  unfold dsuTerminate
  simp only
  split
  · exact Changes.quiet ⟨hw.fdt, hw.files, hw.held, hw.lockOps, hw.named⟩
  · exact Changes.quiet hw

theorem dsuInitializeEvent_evolves : p.Evolves (dsuInitializeEvent K p) := by
  refine (dsuGoLive_evolves K p).trans ?_
  unfold dsuInitializeEvent
  generalize dsuGoLive K p = p
  have hmon := Changes.of_walk_world (dsuMonitorFd_effects K · · p.pgid) p.binds p.world
  have hdet := same_terminationDetection K (walk (dsuMonitorFd K p.pgid) p.binds p.world).1
    (walk (dsuMonitorFd K p.pgid) p.binds p.world).2
  have hquit : p.Evolves { p with
      binds := (walk (dsuMonitorFd K p.pgid) p.binds p.world).1
      world := (dsuTerminationDetection K (walk (dsuMonitorFd K p.pgid) p.binds p.world).1
        (walk (dsuMonitorFd K p.pgid) p.binds p.world).2).2 } :=
    ⟨rfl, rfl, rfl, hmon.trans (Changes.quiet hdet)⟩
  simp only
  split
  · exact hquit.trans (dsuTerminate_evolves K _)
  · exact hquit

theorem changes_of_asks {c c' : List DsuSocket × World} (h : ReflTransGen (Within Ask) c c') : Changes c c' := by
  refine ReflTransGen.mono (fun _ _ h => ?_) _ _ h
  cases h with
  | step pre post h => exact .effect (.step pre post h.effect)

theorem selectAsk_asks (nfds : Int) (sets : FdSets) (timeout : Option Nat) : ReflTransGen (Within Ask)
    (p.binds, p.world)
    ((selectAsk K p nfds sets timeout).proc.binds, (selectAsk K p nfds sets timeout).proc.world) := by
  have hpre := walk_within (f := dsuPreSelect K) (dsuPreSelect_asks K) [] p.binds (p.pass sets.read nfds)
  exact hpre.trans (walk_within (f := dsuSniffConn) dsuSniffConn_asks [] _ _)

theorem selectAsk_evolves (nfds : Int) (sets : FdSets) (timeout : Option Nat) :
    p.Evolves (selectAsk K p nfds sets timeout).proc :=
  ⟨rfl, rfl, rfl, changes_of_asks (selectAsk_asks K p nfds sets timeout)⟩

theorem selectServe_evolves (found : FdSets) : p.Evolves (selectServe K p found).2.2 :=
  ⟨rfl, rfl, rfl, (Changes.of_walk SelectPass.world (dsuHandleConn_effects K) p.binds (p.pass found.read 0)).trans
    (Changes.of_walk SelectPass.world dsuPostSelect_effects _ _)⟩

theorem selectRest_evolves (nfds : Int) (sets : FdSets) (timeout : Option Nat) :
    p.Evolves (selectRest K p nfds sets timeout).1 := by
  have hask := (selectAsk_evolves K p nfds sets timeout).world (World.same_tick _)
  unfold selectRest
  simp only
  split
  · exact hask
  · exact hask.trans (selectServe_evolves K _ _)

theorem selectRound_evolves (nfds : Int) (sets : FdSets) (timeout : Option Nat) :
    p.Evolves (selectRound K p nfds sets timeout).1 := by
  unfold selectRound
  simp only
  split
  · exact dsuInitializeEvent_evolves K p
  · exact (dsuInitializeEvent_evolves K p).trans (selectRest_evolves K _ nfds sets timeout)

/-- The state in which the last round of a `select` begins. -/
def selectLast (nfds : Int) (sets : FdSets) (timeout : Option Nat) : Nat → Proc → Proc
  | 0, p => p
  | rounds + 1, p =>
    match selectRound K p nfds sets timeout with
    | (p, .again) => selectLast nfds sets timeout rounds p
    | _ => p

variable {K} {nfds : Int} {sets : FdSets} {timeout : Option Nat}

theorem select_eq_last {rounds : Nat} {p : Proc} {done : Proc × Round}
    (h : select K nfds sets timeout rounds p = some done) :
    done = selectRound K (selectLast K nfds sets timeout rounds p) nfds sets timeout ∧ done.2 ≠ .again := by
  induction rounds generalizing p with
  | zero => cases h
  | succ rounds ih =>
    unfold select at h
    unfold selectLast
    generalize hround : selectRound K p nfds sets timeout = round at h ⊢
    rcases round with ⟨p', again | ⟨n, found⟩ | exited⟩
    · exact ih h
    · rw [← Option.some.inj h]
      exact ⟨hround.symm, by simp⟩
    · rw [← Option.some.inj h]
      exact ⟨hround.symm, by simp⟩

/-- What every restart keeps holds when the last round begins. -/
theorem selectLast_inv {I : Proc → Prop}
    (keep : ∀ p, (selectRound K p nfds sets timeout).2 = .again → I p → I (selectRound K p nfds sets timeout).1)
    (rounds : Nat) (p : Proc) (hi : I p) : I (selectLast K nfds sets timeout rounds p) := by
  induction rounds generalizing p with
  | zero => exact hi
  | succ rounds ih =>
    unfold selectLast
    split
    · rename_i p' he
      have := keep p (by rw [he]) hi
      rw [he] at this
      exact ih p' this
    · exact hi

theorem selectLast_evolves (rounds : Nat) (p : Proc) : p.Evolves (selectLast K nfds sets timeout rounds p) :=
  selectLast_inv (I := p.Evolves) (fun p' _ hp => hp.trans (selectRound_evolves K p' nfds sets timeout)) rounds p (.refl p)

theorem select_evolves {rounds : Nat} {p : Proc} {done : Proc × Round}
    (h : select K nfds sets timeout rounds p = some done) : p.Evolves done.1 := by
  rw [(select_eq_last h).1]
  exact (selectLast_evolves rounds p).trans (selectRound_evolves K _ nfds sets timeout)

variable (K)

/-! ### `ppoll` and `epoll_wait` -/

/-- The write through a pointer that a search returned. -/
theorem dsuSocketsUpdate_of_find {test : DsuSocket → Bool} {l : List DsuSocket} {r : DsuSocket}
    (h : l.find? test = some r) (f : DsuSocket → DsuSocket) :
    ∃ pre post, l = pre ++ r :: post ∧ dsuSocketsUpdate test f l = pre ++ f r :: post := by
  induction l with
  | nil => cases h
  | cons x l ih =>
    rw [List.find?_cons] at h
    unfold dsuSocketsUpdate
    split at h
    · rename_i hx
      cases h
      exact ⟨[], l, rfl, by simp [hx]⟩
    · rename_i hx
      obtain ⟨pre, post, rfl, hu⟩ := ih h
      exact ⟨x :: pre, post, rfl, by simp [hx, hu]⟩

theorem dsuSocketsUpdate_of_find_none {test : DsuSocket → Bool} {l : List DsuSocket} (h : l.find? test = none)
    (f : DsuSocket → DsuSocket) : dsuSocketsUpdate test f l = l := by
  induction l with
  | nil => rfl
  | cons x l ih =>
    rw [List.find?_cons] at h
    split at h
    · cases h
    · rename_i hx
      simp [dsuSocketsUpdate, hx, ih h]

/-- A write changes of the records only what it changes of one. -/
theorem map_dsuSocketsUpdate {β : Type} {test : DsuSocket → Bool} {f : DsuSocket → DsuSocket} {g : DsuSocket → β}
    (hf : ∀ r, g (f r) = g r) (l : List DsuSocket) : (dsuSocketsUpdate test f l).map g = l.map g := by
  induction l with
  | nil => rfl
  | cons x l ih =>
    unfold dsuSocketsUpdate
    split
    · simp [hf]
    · simp [ih]

/-- Removal takes the record that the search by descriptor returns. -/
theorem dsuSocketsRemoveFd_of_find {l : List DsuSocket} {sockfd : Int} {r : DsuSocket}
    (h : dsuSocketsSearchFd l sockfd = some r) :
    ∃ pre post, l = pre ++ r :: post ∧ dsuSocketsRemoveFd l sockfd = pre ++ post := by
  obtain ⟨hr, pre, post, rfl, hpre⟩ := List.find?_eq_some_iff_append.mp h
  refine ⟨pre, post, rfl, ?_⟩
  rw [dsuSocketsRemoveFd, List.eraseP_append_right _ fun x hx => by simpa using hpre x hx,
    List.eraseP_cons_of_pos (p := fun x : DsuSocket => x.fd == sockfd) hr]

theorem mem_of_search_fd {head : List DsuSocket} {sockfd : Int} {r : DsuSocket}
    (h : dsuSocketsSearchFd head sockfd = some r) : r ∈ head ∧ r.fd = sockfd :=
  ⟨List.mem_of_find?_eq_some h, by simpa using List.find?_some h⟩

theorem fd_ne_of_search_none {head : List DsuSocket} {sockfd : Int} (h : dsuSocketsSearchFd head sockfd = none) :
    ∀ r ∈ head, r.fd ≠ sockfd :=
  fun r hr => by simpa using List.find?_eq_none.mp h r hr

/-- What the searches for internal descriptors do not find, no record watches. -/
theorem not_mem_watched {binds : List DsuSocket} {sockfd : Int}
    (hmonitor : dsuSocketsSearchFds binds sockfd .monitor = none)
    (hinternal : dsuSocketsSearchFds binds sockfd .internal = none) : ∀ r ∈ binds, sockfd ∉ r.watched := by
  intro r hr hmem
  rcases List.mem_append.mp hmem with hmem | hmem
  · split at hmem
    · rename_i hm
      have hcomfd := List.mem_singleton.mp hmem
      exact absurd (List.find?_eq_none.mp hmonitor r hr) (by simp [DsuSocket.listens, hm, hcomfd])
    · cases hmem
  · exact absurd (List.find?_eq_none.mp hinternal r hr) (by simp [DsuSocket.listens, hmem])

theorem mem_of_split {l pre post : List DsuSocket} {r x : DsuSocket} (h : l = pre ++ r :: post)
    (hx : x ∈ pre ++ post) : x ∈ l := by
  rw [h]
  rcases List.mem_append.mp hx with hx | hx <;> simp [hx]

theorem dsuPrePollEntry_asks (e : PollFd) (st : List DsuSocket × World) :
    ReflTransGen (Within Ask) st (dsuPrePollEntry K e st).2 := by
  obtain ⟨binds, w⟩ := st
  unfold dsuPrePollEntry
  simp only
  split
  · exact .refl
  · rename_i r hr
    split
    · obtain ⟨pre, post, hbinds, hu⟩ := dsuSocketsUpdate_of_find hr ({ · with locked := true })
      have h := Within.step pre post (tryMonitor_ask K r w false)
      cases hacc : (tryMonitor K r false w).1 <;> rw [hacc] at h
      · rw [hbinds]
        exact .single h
      · rw [hbinds]
        exact .single h
      · simp only [hu]
        rw [hbinds]
        exact .single h
    · exact .refl

theorem walk_prePollEntry_asks (fds : List PollFd) (st : List DsuSocket × World) :
    ReflTransGen (Within Ask) st (walk (dsuPrePollEntry K) fds st).2 := by
  induction fds generalizing st with
  | nil => exact .refl
  | cons e fds ih => exact (dsuPrePollEntry_asks K e st).trans (ih _)

/-- Sniffing leaves the records as they are. -/
theorem walk_sniffConnPoll_binds (l : List DsuSocket) (a : Nat × (Nat → PollFd)) :
    (walk dsuSniffConnPoll l a).1 = l := by
  have := walk_map (f := dsuSniffConnPoll) (g := id) (fun _ _ => rfl) l a
  simpa using this

theorem pollAsk_asks (fds : List PollFd) : ReflTransGen (Within Ask)
    (p.binds, p.world) ((pollAsk K p fds).proc.binds, (pollAsk K p fds).proc.world) := by
  have hbinds : (pollAsk K p fds).proc.binds = (walk (dsuPrePollEntry K) fds (p.binds, p.world)).2.1 :=
    walk_sniffConnPoll_binds _ _
  rw [hbinds]
  exact walk_prePollEntry_asks K fds (p.binds, p.world)

theorem pollAsk_evolves (fds : List PollFd) : p.Evolves (pollAsk K p fds).proc :=
  ⟨rfl, rfl, rfl, changes_of_asks (pollAsk_asks K p fds)⟩

theorem pollServe_evolves (fds' : Nat → PollFd) (nfds nfds' : Nat) : p.Evolves (pollServe K p fds' nfds nfds') :=
  ⟨rfl, rfl, rfl, (Changes.of_walk PollPass.world (dsuHandleConnPoll_effects K · fds' nfds nfds') p.binds
    { world := p.world, correction := p.correction }).trans (Changes.of_walk_world dsuUnlock_effects _ _)⟩

theorem ppollRest_evolves (fds : List PollFd) (timeout : Option Nat) : p.Evolves (ppollRest K fds timeout p).1 := by
  have hask := (pollAsk_evolves K p fds).world (World.same_tick _)
  unfold ppollRest
  simp only
  split
  · exact hask
  · split
    · exact hask
    · have hserve := fun fds' => hask.trans (pollServe_evolves K _ fds' fds.length (pollAsk K p fds).nfds)
      split
      · exact hserve _
      · exact hserve _

theorem ppoll_evolves (fds : List PollFd) (timeout : Option Nat) : p.Evolves (ppoll K fds timeout p).1 := by
  unfold ppoll
  simp only
  split
  · exact dsuInitializeEvent_evolves K p
  · exact (dsuInitializeEvent_evolves K p).trans (ppollRest_evolves K _ fds timeout)

theorem dsuPostEpoll_evolves (epollfd : Int) (es : List Event) (events : Nat → Event) :
    p.Evolves (dsuPostEpoll K epollfd p es events).1 :=
  ⟨rfl, rfl, rfl, ((Changes.of_walk Prod.snd (dsuHandleConnEpoll_effects K · epollfd) p.binds
    (es, p.world)).trans (Changes.of_walk_world dsuEpollUnlock_effects _ _)).trans
    (Changes.of_walk_world (dsuEpollOriginalfd_effects K · · epollfd) _ _)⟩

theorem dsuPreEpoll_changes (epfd : Int) (binds : List DsuSocket) (w : World) :
    Changes (binds, w) (dsuPreEpoll K epfd binds w) :=
  (Changes.of_walk_world (dsuEpollShadowfd_effects K · · epfd) binds w).trans
    (Changes.of_walk_world (dsuEpollInternalConn_effects K · · epfd) _ _)

theorem epollRest_evolves (epfd : Int) (events : Nat → Event) (maxevents : Nat) (timeout : Option Nat) :
    p.Evolves (epollRest K epfd events maxevents timeout p).1 := by
  have hpre := dsuPreEpoll_changes K epfd p.binds p.world
  have hask : p.Evolves { p with
      binds := (dsuPreEpoll K epfd p.binds p.world).1
      world := (dsuPreEpoll K epfd p.binds p.world).2.tick } :=
    ⟨rfl, rfl, rfl, hpre.trans (Changes.quiet (World.same_tick _))⟩
  unfold epollRest
  simp only
  split
  · exact hask.trans (dsuPostEpoll_evolves K _ epfd _ events)
  · exact hask.trans (dsuPostEpoll_evolves K _ epfd [] events)

theorem epollWait_evolves (epfd : Int) (events : Nat → Event) (maxevents : Nat) (timeout : Option Nat) :
    p.Evolves (epollWait K epfd events maxevents timeout p).1 := by
  unfold epollWait
  simp only
  split
  · exact dsuInitializeEvent_evolves K p
  · exact (dsuInitializeEvent_evolves K p).trans (epollRest_evolves K _ epfd events maxevents timeout)

/-! ### `bind` -/

/-- `bind` has moved the record `s` to `binds`, on the kernel's side `w`. -/
structure Bound (p : Proc) (s : DsuSocket) (w : World) (q : Proc) : Prop where
  pgid : q.pgid = p.pgid
  orphans : q.orphans = p.orphans
  exited : q.exited = p.exited
  sockets : q.sockets = dsuSocketsRemoveFd p.sockets s.fd
  world : w.Same q.world
  binds : ∃ s', q.binds = p.binds ++ [s'] ∧ s'.fd = s.fd ∧ s'.shadowfd = s.shadowfd ∧ s'.port = s.port ∧
    s'.comfd = s.comfd ∧ s'.fds = s.fds ∧ s'.comfds = s.comfds ∧ s'.monitoring = true ∧ s'.locked = s.locked

/-- The section of a `bind` sets the version of the record and its flags. -/
theorem enterFirst_alike (pgid : Int) (s : DsuSocket) (w : World) (hm : s.monitoring = true) :
    Alike s (enterFirst K pgid s w).1 ∧ w.Same (enterFirst K pgid s w).2 := by
  have hw := w.same_waitStatus K s.port
  unfold enterFirst
  simp only
  split
  · exact ⟨⟨rfl, rfl, rfl, rfl, rfl, rfl, hm.symm, rfl, rfl⟩, hw.trans (World.same_setStatus _ _ _)⟩
  · exact ⟨.refl s, hw⟩

theorem enterInherit_alike (pgid : Int) (s : DsuSocket) (w : World) (hm : s.monitoring = true) :
    Alike s (enterInherit K pgid s w).1 ∧ w.Same (enterInherit K pgid s w).2 := by
  have hw := w.same_waitStatus K s.port
  unfold enterInherit
  simp only
  split
  · exact ⟨⟨rfl, rfl, rfl, rfl, rfl, rfl, hm.symm, rfl, rfl⟩, hw⟩
  · exact ⟨.refl s, hw⟩

theorem bindFirst_bound (s : DsuSocket) (w : World) : Bound p s w (bindFirst K p s w).2 := by
  obtain ⟨hs, hw⟩ := enterFirst_alike K p.pgid (openSems K s w).1 (openSems K s w).2 rfl
  exact {
    pgid := rfl
    orphans := rfl
    exited := rfl
    sockets := congrArg (dsuSocketsRemoveFd p.sockets) hs.fd
    world := (w.same_tick.trans (World.same_tick _)).trans (hw.trans (World.same_tick _))
    binds := ⟨_, rfl, hs.fd, hs.shadowfd, hs.port, hs.comfd, hs.fds, hs.comfds, hs.monitoring, hs.locked⟩ }

theorem bindInherit_bound (s : DsuSocket) (w : World) : Bound p s w (bindInherit K p s w).2 := by
  obtain ⟨hs, hw⟩ := enterInherit_alike K p.pgid (openSems K s w).1 (openSems K s w).2 rfl
  exact {
    pgid := rfl
    orphans := rfl
    exited := rfl
    sockets := congrArg (dsuSocketsRemoveFd p.sockets) hs.fd
    world := (w.same_tick.trans (World.same_tick _)).trans hw
    binds := ⟨_, rfl, hs.fd, hs.shadowfd, hs.port, hs.comfd, hs.fds, hs.comfds, hs.monitoring, hs.locked⟩ }

/-- `bind` fails at once, or moves the record, after one exchange with another version or none. -/
theorem bind_cases (sockfd : Int) (port : Nat) :
    (dsuSocketsSearchFd p.sockets sockfd = none ∧ (bind K p sockfd port).2 = p) ∨
    ∃ s, dsuSocketsSearchFd p.sockets sockfd = some s ∧
      let s' := { s with port := port, comfd := (p.world.allot K .com).1 }
      let w := (p.world.allot K .com).2.tick
      ((dsuMonitorInit K s' (p.world.allot K .com).2).1 ≠ .inUse ∧ Bound p s' w (bind K p sockfd port).2 ∨
        (dsuMonitorInit K s' (p.world.allot K .com).2).1 = .inUse ∧
          Bound p (dsuInheritFd K s' w).2.1 (dsuInheritFd K s' w).2.2 (bind K p sockfd port).2) := by
  unfold bind
  split
  · rename_i h
    exact Or.inl ⟨h, rfl⟩
  · rename_i s h
    refine Or.inr ⟨s, h, ?_⟩
    simp only
    generalize hn : dsuMonitorInit K { s with port := port, comfd := (p.world.allot K .com).1 }
      (p.world.allot K .com).2 = named
    have hw : named.2 = (p.world.allot K .com).2.tick := by rw [← hn]; rfl
    rw [hw]
    split
    · rename_i huse
      refine Or.inr ⟨huse, ?_⟩
      split
      · exact bindInherit_bound K p _ _
      · exact bindFirst_bound K p _ _
    · rename_i hfree
      exact Or.inl ⟨hfree, bindFirst_bound K p _ _⟩

/-- The name of the port can be in use only for a `comfd` that is open. -/
theorem dsuMonitorInit_inUse {s : DsuSocket} {w : World} :
    (dsuMonitorInit K s w).1 = .inUse ↔ w.isOpen s.comfd = true ∧ K.bindName w s.port = .inUse := by
  unfold dsuMonitorInit
  simp only
  split
  · rename_i hopen
    simp [hopen]
  · rename_i hclosed
    simp [hclosed]

/-- A descriptor that `dsu_read_fd` does not receive keeps its old value or becomes -1. -/
theorem dsuReadFd_cases (w : World) (fd recvfd port : Int) (kind : Kind) :
    (((dsuReadFd K w fd recvfd port kind).1 = recvfd ∨ (dsuReadFd K w fd recvfd port kind).1 = -1) ∧
      w.Same (dsuReadFd K w fd recvfd port kind).2.2) ∨
    w.Opens (dsuReadFd K w fd recvfd port kind).1 kind (dsuReadFd K w fd recvfd port kind).2.2 := by
  unfold dsuReadFd
  rcases w.recvmsg_cases K fd kind with ⟨hnone, hw⟩ | ⟨n, port', hm, hw⟩
  · simp only
    split
    · exact Or.inl ⟨Or.inl rfl, hw⟩
    · exact Or.inl ⟨Or.inr rfl, hw⟩
    · exact Or.inl ⟨Or.inr rfl, hw⟩
    · rename_i n port' hm
      exact absurd hm (hnone n port')
  · simp only [hm]
    exact Or.inr hw

theorem dsuReadFd_world (w : World) (fd recvfd port : Int) (kind : Kind) :
    (dsuReadFd K w fd recvfd port kind).2.2 = (w.recvmsg K fd kind).2 := by
  unfold dsuReadFd
  simp only
  split <;> rfl

theorem dsuInheritFd_eq (s : DsuSocket) (w : World) : dsuInheritFd K s w =
    if w.isOpen s.comfd && K.connect w s.comfd then
      let a := dsuReadFd K w.tick s.comfd s.shadowfd 0 .shadow
      let b := dsuReadFd K a.2.2 s.comfd 0 a.2.1 .com
      (b.2.1, { s with shadowfd := a.1, comfd := b.1 }, b.2.2.close K s.comfd)
    else (-1, s, w.tick) :=
  rfl

/-! ### One call -/

/-- The state after a call: that of a call on sockets, or of an event call. -/
inductive Stepped (p : Proc) : Proc → Prop
  | socket : Stepped p (socket K p).2
  | bind (sockfd : Int) (port : Nat) : Stepped p (bind K p sockfd port).2
  | accept (sockfd : Int) : Stepped p (accept K p sockfd).2
  | close (sockfd : Int) : Stepped p (close K p sockfd)
  | epollCtl (epfd : Int) (op : EpollOp) (fd : Int) (event : EpollEvent) :
    Stepped p (epollCtl K p epfd op fd event).2
  | event {q : Proc} (h : p.Evolves q) : Stepped p q

def Call.waits : Call → Bool
  | .select .. | .ppoll .. | .epollWait .. => true
  | _ => false

variable {K p}

theorem Proc.step_exited_false {call : Call} {q : Proc} (hs : p.step K call = some q) : p.exited = false := by
  unfold Proc.step at hs
  split at hs
  · cases hs
  · rename_i hexit
    simpa using hexit

theorem Proc.step_select {nfds : Int} {sets : FdSets} {timeout : Option Nat} {rounds : Nat} {q : Proc}
    (hs : p.step K (.select nfds sets timeout rounds) = some q) :
    ∃ done, select K nfds sets timeout rounds p = some done ∧ done.1 = q := by
  have hexit := step_exited_false hs
  simp only [Proc.step, hexit, Bool.false_eq_true, ↓reduceIte] at hs
  exact Option.map_eq_some_iff.mp hs

theorem Proc.step_ppoll {fds : List PollFd} {timeout : Option Nat} {q : Proc}
    (hs : p.step K (.ppoll fds timeout) = some q) : (ppoll K fds timeout p).1 = q := by
  have hexit := step_exited_false hs
  simp only [Proc.step, hexit, Bool.false_eq_true, ↓reduceIte] at hs
  split at hs
  · cases hs
  · rename_i hp
    rw [hp]
    exact Option.some.inj hs

theorem Proc.step_epollWait {epfd : Int} {events : Nat → Event} {maxevents : Nat} {timeout : Option Nat} {q : Proc}
    (hs : p.step K (.epollWait epfd events maxevents timeout) = some q) :
    (epollWait K epfd events maxevents timeout p).1 = q := by
  have hexit := step_exited_false hs
  simp only [Proc.step, hexit, Bool.false_eq_true, ↓reduceIte] at hs
  exact Option.some.inj hs

theorem step_evolves {call : Call} {q : Proc} (hcall : call.waits = true) (hs : p.step K call = some q) : p.Evolves q := by
  cases call with
  | select nfds sets timeout rounds =>
    obtain ⟨done, hdone, rfl⟩ := Proc.step_select hs
    exact select_evolves hdone
  | ppoll fds timeout => exact Proc.step_ppoll hs ▸ ppoll_evolves K p fds timeout
  | epollWait epfd events maxevents timeout => exact Proc.step_epollWait hs ▸ epollWait_evolves K p ..
  | socket => cases hcall
  | bind => cases hcall
  | accept => cases hcall
  | close => cases hcall
  | epollCtl => cases hcall

/-- Which call has led to which state. -/
inductive Takes (K : Kernel) (p : Proc) : Call → Proc → Prop
  | socket : Takes K p .socket (socket K p).2
  | bind (sockfd : Int) (port : Nat) : Takes K p (.bind sockfd port) (bind K p sockfd port).2
  | accept (sockfd : Int) : Takes K p (.accept sockfd) (accept K p sockfd).2
  | close (sockfd : Int) : Takes K p (.close sockfd) (close K p sockfd)
  | epollCtl (epfd : Int) (op : EpollOp) (fd : Int) (event : EpollEvent) :
    Takes K p (.epollCtl epfd op fd event) (epollCtl K p epfd op fd event).2
  | event {call : Call} {q : Proc} (hcall : call.waits = true) (h : p.Evolves q) : Takes K p call q

theorem step_takes {call : Call} {q : Proc} (hs : p.step K call = some q) : Takes K p call q := by
  have hexit := Proc.step_exited_false hs
  by_cases hcall : call.waits = true
  · exact .event hcall (step_evolves hcall hs)
  · simp only [Proc.step, hexit, Bool.false_eq_true, ↓reduceIte] at hs
    cases call with
    | socket => cases hs; exact .socket
    | bind sockfd port => cases hs; exact .bind sockfd port
    | accept sockfd => cases hs; exact .accept sockfd
    | close sockfd => cases hs; exact .close sockfd
    | epollCtl epfd op fd event => cases hs; exact .epollCtl epfd op fd event
    | select => exact absurd rfl hcall
    | ppoll => exact absurd rfl hcall
    | epollWait => exact absurd rfl hcall

theorem Proc.step_inv {call : Call} {q : Proc} (h : p.step K call = some q) : p.exited = false ∧ Stepped K p q := by
  refine ⟨step_exited_false h, ?_⟩
  cases step_takes h with
  | socket => exact .socket
  | bind sockfd port => exact .bind sockfd port
  | accept sockfd => exact .accept sockfd
  | close sockfd => exact .close sockfd
  | epollCtl epfd op fd event => exact .epollCtl epfd op fd event
  | event _ he => exact .event he

end Calls

end OpenDSU
