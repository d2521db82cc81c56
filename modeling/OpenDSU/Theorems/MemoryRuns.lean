import OpenDSU.Theorems.MemoryRefines

/-! A process with its records in memory does what the process on lists does, call by call and over whole runs. -/

namespace OpenDSU
open Heap

/-- The process with its records in this memory. -/
abbrev Proc.inMemory (p : Proc) (m : Memory) : MemoryProc where
  pgid := p.pgid
  memory := m
  live := p.live
  correction := p.correction
  world := p.world
  exited := p.exited

/-- The memory shows the two lists of the process. -/
def Proc.HeldIn (p : Proc) (m : Memory) (lost : List Nat) : Prop := m.Shows p.sockets p.binds lost

/-- The nodes of descriptors that a call loses: those of the record that `close` removes. -/
def Call.loses (p : Proc) : Call → Nat
  | .close sockfd =>
    if sockfd = 0 || sockfd = 1 || sockfd = 2 then 0
    else match (dsuSocketsSearchFd p.sockets sockfd).or (dsuSocketsSearchFd p.binds sockfd) with
      | some r => r.fds.length + r.comfds.length
      | none => 0
  | _ => 0

/-- The nodes that a program has lost with its calls. -/
def Proc.loses (K : Kernel) : List Call → Proc → Nat
  | [], _ => 0
  | c :: cs, p => c.loses p + ((p.call K c).map fun a => Proc.loses K cs a.1).getD 0

/-- A call in memory returns what it returns on lists, with the process that it leaves in memory. -/
def Agrees {α : Type} (lost : List Nat) (got : Option (α × MemoryProc)) (done : α × Proc) : Prop :=
  ∃ m, got = some (done.1, done.2.inMemory m) ∧ done.2.HeldIn m lost

theorem Agrees.ite {α : Type} {lost : List Nat} {c : Prop} [Decidable c] {a b : Option (α × MemoryProc)} {a' b' : α × Proc}
    (ha : c → Agrees lost a a') (hb : ¬c → Agrees lost b b') :
    Agrees lost (if c then a else b) (if c then a' else b') := by
  by_cases hc : c
  · rw [if_pos hc, if_pos hc]
    exact ha hc
  · rw [if_neg hc, if_neg hc]
    exact hb hc

section MemoryRuns
variable (K : Kernel) (pick : Memory → Nat) {p : Proc} {m : Memory} {lost : List Nat}

/-! ### The start of every event call -/

theorem dsuGoLive_inMemory (hm : p.HeldIn m lost) :
    ∃ m', (p.inMemory m).dsuGoLive K = some ((dsuGoLive K p).inMemory m') ∧ (dsuGoLive K p).HeldIn m' lost := by
  unfold MemoryProc.dsuGoLive dsuGoLive
  split
  · exact ⟨m, rfl, hm⟩
  · obtain ⟨m', hpass, hm'⟩ :=
      Memory.Shows.pass hm (Memory.onFields_does (Memory.dsuConfigureSocket_blind K)) (dsuActivateProcess K p.world)
    refine ⟨m', ?_, hm'⟩
    simp only [hpass]
    rfl

theorem dsuInitializeEvent_inMemory (hm : p.HeldIn m lost) :
    ∃ m', (p.inMemory m).dsuInitializeEvent K = some ((dsuInitializeEvent K p).inMemory m') ∧
      (dsuInitializeEvent K p).HeldIn m' lost := by
  obtain ⟨m₁, hlive, hm₁⟩ := dsuGoLive_inMemory K hm
  unfold MemoryProc.dsuInitializeEvent dsuInitializeEvent
  rw [hlive, Option.bind_some]
  generalize dsuGoLive K p = p at hm₁
  obtain ⟨m', hpass, hm'⟩ := Memory.Shows.pass hm₁ (Memory.onFields_does (Memory.dsuMonitorFd_blind K p.pgid)) p.world
  have hdetect := hm'.dsuTerminationDetection K (walk (dsuMonitorFd K p.pgid) p.binds p.world).2
  refine ⟨m', ?_, ?_⟩
  · simp only [hpass, Option.bind_some, hdetect,
      Option.map_some]
    split <;> rfl
  · simp only
    split
    · exact hm'
    · exact hm'

/-! ### `select` -/

theorem selectAsk_inMemory (hm : p.HeldIn m lost) (nfds : Int) (sets : FdSets) (timeout : Option Nat) :
    let wait := selectAsk K p nfds sets timeout
    ∃ m', (p.inMemory m).selectAsk K nfds sets timeout =
        some (wait.proc.inMemory m', wait.asked, wait.maxFds, wait.timeout) ∧ wait.proc.HeldIn m' lost := by
  obtain ⟨m₁, hpre, hm₁⟩ := Memory.Shows.pass hm (Memory.onFields_does (Memory.dsuPreSelect_blind K)) (p.pass sets.read nfds)
  obtain ⟨m₂, hsniff, hm₂⟩ := hm₁.pass Memory.dsuSniffConn_does (walk (dsuPreSelect K) p.binds (p.pass sets.read nfds)).2
  refine ⟨m₂, ?_, hm₂⟩
  have hpass : (p.inMemory m).selectPass sets.read nfds = p.pass sets.read nfds := rfl
  simp only [MemoryProc.selectAsk, hpass, hpre, Option.bind_some, hsniff]
  rfl

theorem selectServe_inMemory (hm : p.HeldIn m lost) (found : FdSets) :
    let served := selectServe K p found
    ∃ m', (p.inMemory m).selectServe K pick found = some (served.1, served.2.1, served.2.2.inMemory m') ∧
      served.2.2.HeldIn m' lost := by
  obtain ⟨m₁, hhandle, hm₁⟩ := Memory.Shows.pass hm (Memory.dsuHandleConn_does K pick) (p.pass found.read 0)
  obtain ⟨m₂, hpost, hm₂⟩ := hm₁.pass (Memory.onFields_does Memory.dsuPostSelect_blind)
    (walk (dsuHandleConn K) p.binds (p.pass found.read 0)).2
  refine ⟨m₂, ?_, hm₂⟩
  have hpass : (p.inMemory m).selectPass found.read 0 = p.pass found.read 0 := rfl
  simp only [MemoryProc.selectServe, hpass, hhandle, Option.bind_some, hpost]
  rfl

theorem selectRest_inMemory (hm : p.HeldIn m lost) (nfds : Int) (sets : FdSets) (timeout : Option Nat) :
    let done := selectRest K p nfds sets timeout
    ∃ m', (p.inMemory m).selectRest K pick nfds sets timeout = some (done.1.inMemory m', done.2) ∧
      done.1.HeldIn m' lost := by
  obtain ⟨m₁, hask, hm₁⟩ := selectAsk_inMemory K hm nfds sets timeout
  unfold MemoryProc.selectRest selectRest
  simp only [hask, Option.bind_some]
  generalize selectAsk K p nfds sets timeout = wait at hm₁
  rcases wait.proc.world.select K wait.maxFds wait.asked wait.timeout with ⟨found, w⟩
  cases found with
  | none => exact ⟨m₁, rfl, hm₁⟩
  | some found =>
    have hwait : ({ wait.proc with world := w } : Proc).HeldIn m₁ lost := hm₁
    obtain ⟨m', hserve, hm'⟩ := selectServe_inMemory K pick hwait found
    refine ⟨m', ?_, hm'⟩
    change Option.map _ (({ wait.proc with world := w } : Proc).inMemory m₁ |>.selectServe K pick found) = _
    rw [hserve]
    rfl

theorem selectRound_inMemory (hm : p.HeldIn m lost) (nfds : Int) (sets : FdSets) (timeout : Option Nat) :
    let done := selectRound K p nfds sets timeout
    ∃ m', (p.inMemory m).selectRound K pick nfds sets timeout = some (done.1.inMemory m', done.2) ∧
      done.1.HeldIn m' lost := by
  obtain ⟨m₁, hinit, hm₁⟩ := dsuInitializeEvent_inMemory K hm
  unfold MemoryProc.selectRound selectRound
  by_cases hexit : (dsuInitializeEvent K p).exited = true
  · simp only [hinit, Option.bind_some, if_pos hexit]
    exact ⟨m₁, rfl, hm₁⟩
  · simp only [hinit, Option.bind_some, if_neg hexit]
    exact selectRest_inMemory K pick hm₁ nfds sets timeout

/-- The restarts of `select`. -/
theorem select_inMemory (nfds : Int) (sets : FdSets) (timeout : Option Nat) (rounds : Nat) (hm : p.HeldIn m lost) :
    ∃ m', (p.inMemory m).select K pick nfds sets timeout rounds =
        some ((select K nfds sets timeout rounds p).map fun a => (a.1.inMemory m', a.2)) ∧
      ∀ a, select K nfds sets timeout rounds p = some a → a.1.HeldIn m' lost := by
  induction rounds generalizing p m with
  | zero => exact ⟨m, rfl, nofun⟩
  | succ rounds ih =>
    obtain ⟨m₁, hround, hm₁⟩ := selectRound_inMemory K pick hm nfds sets timeout
    unfold MemoryProc.select select
    simp only [hround, Option.bind_some]
    rcases hdone : selectRound K p nfds sets timeout with ⟨p', round⟩
    rw [hdone] at hm₁
    cases round with
    | again => exact ih hm₁
    | returned result sets =>
      refine ⟨m₁, rfl, fun a ha => ?_⟩
      cases ha
      exact hm₁
    | exited =>
      refine ⟨m₁, rfl, fun a ha => ?_⟩
      cases ha
      exact hm₁

/-! ### `ppoll` -/

theorem pollAsk_inMemory (hm : p.HeldIn m lost) (fds : List PollFd) :
    let wait := pollAsk K p fds
    ∃ m', (p.inMemory m).pollAsk K fds = some (wait.proc.inMemory m', wait.nfds, wait.fds) ∧ wait.proc.HeldIn m' lost := by
  obtain ⟨m₁, hentries, hm₁⟩ := Memory.Shows.dsuPrePollEntries K hm fds p.world
  obtain ⟨m₂, hsniff, hm₂⟩ := hm₁.pass Memory.dsuSniffConnPoll_does
    (dsuCompressFds (pollArray (walk (dsuPrePollEntry K) fds (p.binds, p.world)).1)
      (walk (dsuPrePollEntry K) fds (p.binds, p.world)).1.length)
  refine ⟨m₂, ?_, hm₂⟩
  simp only [MemoryProc.pollAsk, hentries, Option.bind_some, hsniff]
  rfl

theorem pollServe_inMemory (hm : p.HeldIn m lost) (fds' : Nat → PollFd) (nfds nfds' : Nat) :
    ∃ m', (p.inMemory m).pollServe K pick fds' nfds nfds' = some ((pollServe K p fds' nfds nfds').inMemory m') ∧
      (pollServe K p fds' nfds nfds').HeldIn m' lost := by
  obtain ⟨m₁, hhandle, hm₁⟩ := Memory.Shows.pass hm
    (Memory.dsuHandleConnPoll_does K pick fds' nfds nfds')
    { world := p.world, correction := p.correction }
  obtain ⟨m₂, hunlock, hm₂⟩ := hm₁.pass (Memory.onFields_does Memory.unlockFd_blind)
    (walk (dsuHandleConnPoll K fds' nfds nfds') p.binds { world := p.world, correction := p.correction }).2.world
  refine ⟨m₂, ?_, hm₂⟩
  simp only [MemoryProc.pollServe, hhandle,
    Option.bind_some]
  change Option.map _ (Memory.pass (Memory.onFields unlockFd) _) = _
  rw [hunlock]
  rfl

theorem ppollRest_inMemory (hm : p.HeldIn m lost) (fds : List PollFd) (timeout : Option Nat) :
    let done := ppollRest K fds timeout p
    ∃ m', (p.inMemory m).ppollRest K pick fds timeout = some (done.1.inMemory m', done.2) ∧ done.1.HeldIn m' lost := by
  obtain ⟨m₁, hask, hm₁⟩ := pollAsk_inMemory K hm fds
  unfold MemoryProc.ppollRest ppollRest
  simp only [hask, Option.bind_some]
  generalize pollAsk K p fds = wait at hm₁
  rcases wait.proc.world.ppoll K wait.fds wait.nfds timeout with ⟨found, w⟩
  have hwait : ({ wait.proc with world := w } : Proc).HeldIn m₁ lost := hm₁
  cases found with
  | none => exact ⟨m₁, rfl, hm₁⟩
  | some found =>
    obtain ⟨fds', result⟩ := found
    by_cases hresult : result = 0
    · simp only [if_pos hresult]
      exact ⟨m₁, rfl, hm₁⟩
    · obtain ⟨m', hserve, hm'⟩ := pollServe_inMemory K pick hwait fds' fds.length wait.nfds
      have hrevents := Memory.Shows.dsuSetReventsFrom hm' fds' wait.nfds 0 0 fds
      refine ⟨m', ?_, ?_⟩
      · simp only [if_neg hresult]
        change Option.bind (({ wait.proc with world := w } : Proc).inMemory m₁ |>.pollServe K pick fds' _ _) _ = _
        rw [hserve, Option.bind_some, hrevents]
        unfold dsuSetRevents
        cases dsuSetReventsFrom _ fds' wait.nfds 0 0 fds <;> rfl
      · simp only [if_neg hresult]
        cases dsuSetRevents _ fds fds' wait.nfds <;> exact hm'

theorem ppoll_inMemory (hm : p.HeldIn m lost) (fds : List PollFd) (timeout : Option Nat) :
    let done := ppoll K fds timeout p
    ∃ m', (p.inMemory m).ppoll K pick fds timeout = some (done.1.inMemory m', done.2) ∧ done.1.HeldIn m' lost := by
  obtain ⟨m₁, hinit, hm₁⟩ := dsuInitializeEvent_inMemory K hm
  unfold MemoryProc.ppoll ppoll
  by_cases hexit : (dsuInitializeEvent K p).exited = true
  · simp only [hinit, Option.bind_some, if_pos hexit]
    exact ⟨m₁, rfl, hm₁⟩
  · simp only [hinit, Option.bind_some, if_neg hexit]
    exact ppollRest_inMemory K pick hm₁ fds timeout

/-! ### `epoll_wait` and `epoll_ctl` -/

theorem dsuPostEpoll_inMemory (hm : p.HeldIn m lost) (epollfd : Int) (es : List Event) (events : Nat → Event) :
    let done := dsuPostEpoll K epollfd p es events
    ∃ m', (p.inMemory m).dsuPostEpoll K pick epollfd es events = some (done.1.inMemory m', done.2) ∧
      done.1.HeldIn m' lost := by
  obtain ⟨m₁, hhandle, hm₁⟩ := Memory.Shows.pass hm
    (Memory.dsuHandleConnEpoll_does K pick epollfd) (es, p.world)
  generalize hw₁ : walk (dsuHandleConnEpoll K epollfd) p.binds (es, p.world) = w₁ at hhandle hm₁
  obtain ⟨m₂, hunlock, hm₂⟩ := hm₁.pass (Memory.onFields_does Memory.unlockFd_blind) w₁.2.2
  obtain ⟨m₃, horiginal, hm₃⟩ := hm₂.pass (Memory.onFields_does (Memory.dsuEpollOriginalfd_blind K epollfd))
    (walk unlockFd w₁.1 w₁.2.2).2
  have hcorrect := hm₃.dsuEpollCorrectEvents w₁.2.1.length (storeEvents w₁.2.1 events)
  have hlist : dsuPostEpoll K epollfd p es events =
      ({ p with
          binds := (walk (dsuEpollOriginalfd K epollfd) (walk unlockFd w₁.1 w₁.2.2).1 (walk unlockFd w₁.1 w₁.2.2).2).1
          world := (walk (dsuEpollOriginalfd K epollfd) (walk unlockFd w₁.1 w₁.2.2).1 (walk unlockFd w₁.1 w₁.2.2).2).2 },
        dsuEpollCorrectEvents
          (walk (dsuEpollOriginalfd K epollfd) (walk unlockFd w₁.1 w₁.2.2).1 (walk unlockFd w₁.1 w₁.2.2).2).1
          w₁.2.1.length (storeEvents w₁.2.1 events)) := by
    subst hw₁
    rfl
  rw [hlist]
  refine ⟨m₃, ?_, hm₃⟩
  simp only [MemoryProc.dsuPostEpoll, hhandle, Option.bind_some]
  change Option.bind (Memory.pass (Memory.onFields unlockFd) _) _ = _
  simp only [hunlock, Option.bind_some, horiginal, hcorrect, Option.map_some]

theorem epollRest_inMemory (hm : p.HeldIn m lost) (epfd : Int) (events : Nat → Event) (maxevents : Nat)
    (timeout : Option Nat) :
    let done := epollRest K epfd events maxevents timeout p
    ∃ m', (p.inMemory m).epollRest K pick epfd events maxevents timeout = some (done.1.inMemory m', done.2) ∧
      done.1.HeldIn m' lost := by
  obtain ⟨m₁, hshadow, hm₁⟩ := Memory.Shows.pass hm (Memory.onFields_does (Memory.dsuEpollShadowfd_blind K epfd)) p.world
  obtain ⟨m₂, hinternal, hm₂⟩ := hm₁.pass (Memory.dsuEpollInternalConn_does K epfd)
    (walk (dsuEpollShadowfd K epfd) p.binds p.world).2
  unfold MemoryProc.epollRest epollRest
  simp only [hshadow, Option.bind_some, hinternal]
  have hpre : dsuPreEpoll K epfd p.binds p.world = walk (dsuEpollInternalConn K epfd)
      (walk (dsuEpollShadowfd K epfd) p.binds p.world).1 (walk (dsuEpollShadowfd K epfd) p.binds p.world).2 := rfl
  rw [← hpre] at hm₂ ⊢
  generalize dsuPreEpoll K epfd p.binds p.world = asked at hm₂
  rcases asked.2.epollWait K epfd maxevents timeout with ⟨found, w⟩
  have hasked : ({ p with binds := asked.1, world := w } : Proc).HeldIn m₂ lost := hm₂
  cases found with
  | none =>
    obtain ⟨m', hpost, hm'⟩ := dsuPostEpoll_inMemory K pick hasked epfd [] events
    refine ⟨m', ?_, hm'⟩
    change Option.map _ (({ p with binds := asked.1, world := w } : Proc).inMemory m₂ |>.dsuPostEpoll K pick _ _ _) = _
    rw [hpost]
    rfl
  | some es =>
    obtain ⟨m', hpost, hm'⟩ := dsuPostEpoll_inMemory K pick hasked epfd es events
    refine ⟨m', ?_, hm'⟩
    change Option.map _ (({ p with binds := asked.1, world := w } : Proc).inMemory m₂ |>.dsuPostEpoll K pick _ _ _) = _
    rw [hpost]
    rfl

theorem epollWait_inMemory (hm : p.HeldIn m lost) (epfd : Int) (events : Nat → Event) (maxevents : Nat)
    (timeout : Option Nat) :
    let done := epollWait K epfd events maxevents timeout p
    ∃ m', (p.inMemory m).epollWait K pick epfd events maxevents timeout = some (done.1.inMemory m', done.2) ∧
      done.1.HeldIn m' lost := by
  obtain ⟨m₁, hinit, hm₁⟩ := dsuInitializeEvent_inMemory K hm
  unfold MemoryProc.epollWait epollWait
  by_cases hexit : (dsuInitializeEvent K p).exited = true
  · simp only [hinit, Option.bind_some, if_pos hexit]
    exact ⟨m₁, rfl, hm₁⟩
  · simp only [hinit, Option.bind_some, if_neg hexit]
    exact epollRest_inMemory K pick hm₁ epfd events maxevents timeout

theorem epollCtl_inMemory (hm : p.HeldIn m lost) (epfd : Int) (op : EpollOp) (fd : Int) (event : EpollEvent) :
    Agrees lost ((p.inMemory m).epollCtl K epfd op fd event) (epollCtl K p epfd op fd event) := by
  have hself := hm
  obtain ⟨L, hrep, hsockets, hbinds⟩ := hm
  have hfind := hrep.searchBinds fd
  rw [hbinds] at hfind
  unfold MemoryProc.epollCtl epollCtl
  rcases hfind with ⟨hp, hs⟩ | ⟨pre, r, post, hp, hs, hne, hL, hpre, hr⟩
  · simp only [hp, hs, Option.bind_some, if_true]
    exact ⟨m, rfl, hself⟩
  · obtain ⟨-, n, hnode⟩ := hrep.read hL
    obtain ⟨m', hwrite, hshows⟩ := hrep.writeFound (·.fd == fd) hL hpre hr
      ({ · with ev := if op = .del then noEvent else event }) fun _ _ _ => rfl
    rw [hsockets, hbinds] at hshows
    simp only [hp, hs, Option.bind_some, hne, if_false, hnode, hwrite,
      Option.map_some]
    exact ⟨m', rfl, hshows⟩

/-! ### The other wrappers -/

theorem socket_inMemory (hm : p.HeldIn m lost) : Agrees lost ((p.inMemory m).socket K pick) (socket K p) := by
  have hself := hm
  obtain ⟨L, hrep, hsockets, hbinds⟩ := hm
  unfold MemoryProc.socket socket
  simp only
  by_cases hpos : 0 < (p.world.allot K .user).1
  · obtain ⟨m', a, hadd, hrep'⟩ := Memory.add_spec pick hrep .sockets
      (x := SocketNode.bare
        { dsuSocketListInit with shadowfd := (p.world.allot K .user).1, fd := (p.world.allot K .user).1 }) rfl rfl
    simp only [if_pos hpos, hadd, Option.map_some]
    refine ⟨m', rfl, _, hrep', ?_, hbinds⟩
    rw [Function.update_self, List.map_append, hsockets]
    rfl
  · simp only [if_neg hpos]
    exact ⟨m, rfl, hself⟩

theorem accept_inMemory (hm : p.HeldIn m lost) (sockfd : Int) :
    Agrees lost ((p.inMemory m).accept K pick sockfd) (accept K p sockfd) := by
  have hself := hm
  have hshadow := Memory.Shows.dsuShadowfd hm sockfd
  obtain ⟨L, hrep, hsockets, hbinds⟩ := hm
  have hfind := hrep.searchBinds sockfd
  rw [hbinds] at hfind
  unfold MemoryProc.accept accept
  simp only [hshadow, Option.bind_some]
  rcases hfind with ⟨hp, hs⟩ | ⟨pre, r, post, hp, hs, hne, hL, hpre, hr⟩
  · have hnone : (if (none : Option DsuSocket).isSome then Kind.client else .user) = .user := rfl
    simp only [hp, hs, Option.bind_some, ne_eq, not_true_eq_false, if_false, hnone]
    by_cases hfailed : (p.world.accept K (dsuShadowfd p.binds sockfd) .user).1 = -1
    · simp only [if_pos hfailed]
      exact ⟨m, rfl, hself⟩
    · simp only [if_neg hfailed]
      refine ⟨m, ?_, ?_⟩
      · rfl
      · change m.Shows p.sockets (dsuSocketsUpdate _ _ _) lost
        rw [dsuSocketsUpdate_of_find_none hs]
        exact hself
  · have hsome : (if (some r.sock).isSome then Kind.client else .user) = .client := rfl
    simp only [hp, hs, Option.bind_some, ne_eq, hne, not_false_eq_true, if_true, hsome]
    by_cases hfailed : (p.world.accept K (dsuShadowfd p.binds sockfd) .client).1 = -1
    · simp only [if_pos hfailed]
      exact ⟨m, rfl, hself⟩
    · obtain ⟨m', hadd, hshows⟩ := hrep.addFound pick (·.fd == sockfd) hL hpre hr
        (p.world.accept K (dsuShadowfd p.binds sockfd) .client).1 .nonInternal
      rw [hsockets, hbinds] at hshows
      simp only [if_neg hfailed, hadd, Option.map_some]
      exact ⟨m', rfl, hshows⟩

/-- The record that a search has found leaves `sockets` with its fields set, and comes to the end of `binds`. -/
theorem transfer_inMemory {L : Layout} {pre post : List Laid} {r : Laid} (hrep : m.Represents L lost)
    (hsockets : (L .sockets).map Laid.sock = p.sockets) (hbinds : (L .binds).map Laid.sock = p.binds)
    (hL : L .sockets = pre ++ r :: post) (hpre : ∀ x ∈ pre, (x.sock.fd == r.sock.fd) = false) (s : DsuSocket)
    (hfd : s.fd = r.sock.fd) (w : World) :
    let done := p.transfer { s with fds := r.sock.fds, comfds := r.sock.comfds } w
    ∃ m', (p.inMemory m).transfer pick r.addr s w = some (done.inMemory m') ∧ done.HeldIn m' lost := by
  obtain ⟨m₁, hwrite, hrep₁⟩ := Memory.write_spec hrep hL s
  have hpre' : ∀ x ∈ pre, x.node.fd ≠ (r.put s).node.fd := by
    intro x hx heq
    have hne := hpre x hx
    rw [← hfd] at hne
    exact absurd heq (beq_eq_false_iff_ne.mp hne)
  obtain ⟨m', a, htransfer, hrep'⟩ := Memory.transfer_spec pick hrep₁ (Function.update_self ..) hpre'
  refine ⟨m', ?_, _, hrep', ?_, ?_⟩
  · change m₁.dsuSocketsTransferFd pick .binds .sockets r.addr = some m' at htransfer
    simp only [MemoryProc.transfer, hwrite, Option.bind_some, htransfer]
    rfl
  · rw [Function.update_self]
    change _ = p.sockets.eraseP fun x => x.fd == s.fd
    have hfirst : ∀ x ∈ pre.map Laid.sock, ¬(x.fd == r.sock.fd) = true := by simpa using hpre
    have herase := List.eraseP_append_right (p := fun x : DsuSocket => x.fd == r.sock.fd)
      (r.sock :: post.map Laid.sock) hfirst
    rw [← hsockets, hL, hfd, List.map_append, List.map_append, List.map_cons, herase]
    simp
  · change (L .binds ++ [{ r.put s with addr := a }]).map Laid.sock = p.binds ++ [_]
    rw [List.map_append, hbinds]
    rfl

section Bind
variable {L : Layout} {pre post : List Laid} {r : Laid} (hrep : m.Represents L lost)
  (hsockets : (L .sockets).map Laid.sock = p.sockets) (hbinds : (L .binds).map Laid.sock = p.binds)
  (hL : L .sockets = pre ++ r :: post) (hpre : ∀ x ∈ pre, (x.sock.fd == r.sock.fd) = false) (s : DsuSocket)
  (hfd : s.fd = r.sock.fd) (w : World)
include hrep hsockets hbinds hL hpre hfd

theorem bindFirst_inMemory :
    Agrees lost ((p.inMemory m).bindFirst K pick r.addr s w)
      (bindFirst K p { s with fds := r.sock.fds, comfds := r.sock.comfds } w) := by
  have hstart := Memory.openSems_blind K s w r.sock.fds r.sock.comfds
  have henter := Memory.enterFirst_blind K p.pgid (openSems K s w).1 (openSems K s w).2 r.sock.fds r.sock.comfds
  have hfd' : (enterFirst K p.pgid (openSems K s w).1 (openSems K s w).2).1.fd = r.sock.fd :=
    (enterFirst_alike K p.pgid _ _ rfl).1.fd.trans hfd
  obtain ⟨m', htransfer, hm'⟩ := transfer_inMemory pick hrep hsockets hbinds hL hpre _ hfd'
    (enterFirst K p.pgid (openSems K s w).1 (openSems K s w).2).2.tick
  unfold MemoryProc.bindFirst bindFirst
  simp only [hstart, henter, htransfer, Option.map_some]
  exact ⟨m', rfl, hm'⟩

theorem bindInherit_inMemory :
    Agrees lost ((p.inMemory m).bindInherit K pick r.addr s w)
      (bindInherit K p { s with fds := r.sock.fds, comfds := r.sock.comfds } w) := by
  have hstart := Memory.openSems_blind K s w r.sock.fds r.sock.comfds
  have henter := Memory.enterInherit_blind K p.pgid (openSems K s w).1 (openSems K s w).2 r.sock.fds r.sock.comfds
  have hfd' : (enterInherit K p.pgid (openSems K s w).1 (openSems K s w).2).1.fd = r.sock.fd :=
    (enterInherit_alike K p.pgid _ _ rfl).1.fd.trans hfd
  obtain ⟨m', htransfer, hm'⟩ := transfer_inMemory pick hrep hsockets hbinds hL hpre _ hfd'
    (enterInherit K p.pgid (openSems K s w).1 (openSems K s w).2).2
  unfold MemoryProc.bindInherit bindInherit
  simp only [hstart, henter, htransfer, Option.map_some]
  exact ⟨m', rfl, hm'⟩

theorem bindAsked_inMemory :
    let s' := { s with fds := r.sock.fds, comfds := r.sock.comfds }
    Agrees lost
      (if 0 < (dsuInheritFd K s w).1 then
        (p.inMemory m).bindInherit K pick r.addr (dsuInheritFd K s w).2.1 (dsuInheritFd K s w).2.2
      else (p.inMemory m).bindFirst K pick r.addr (dsuInheritFd K s w).2.1 (dsuInheritFd K s w).2.2)
      (if 0 < (dsuInheritFd K s' w).1 then bindInherit K p (dsuInheritFd K s' w).2.1 (dsuInheritFd K s' w).2.2
      else bindFirst K p (dsuInheritFd K s' w).2.1 (dsuInheritFd K s' w).2.2) := by
  have hfd' : (dsuInheritFd K s w).2.1.fd = r.sock.fd := by
    rw [dsuInheritFd_eq]
    split
    · exact hfd
    · exact hfd
  simp only [Memory.dsuInheritFd_blind]
  exact .ite (fun _ => bindInherit_inMemory K pick hrep hsockets hbinds hL hpre _ hfd' _)
    fun _ => bindFirst_inMemory K pick hrep hsockets hbinds hL hpre _ hfd' _

end Bind

theorem bind_inMemory (hm : p.HeldIn m lost) (sockfd : Int) (port : Nat) :
    Agrees lost ((p.inMemory m).bind K pick sockfd port) (bind K p sockfd port) := by
  have hself := hm
  obtain ⟨L, hrep, hsockets, hbinds⟩ := hm
  have hfind := hrep.searchSockets sockfd
  rw [hsockets] at hfind
  unfold MemoryProc.bind bind
  rcases hfind with ⟨hp, hs⟩ | ⟨pre, r, post, hp, hs, hne, hL, hpre, hr⟩
  · simp only [hp, hs, Option.bind_some, if_true]
    exact ⟨m, rfl, hself⟩
  · obtain ⟨-, n, hnode⟩ := hrep.read hL
    have hfirst : ∀ x ∈ pre, (x.sock.fd == r.sock.fd) = false := by
      rw [show r.sock.fd = sockfd from beq_iff_eq.mp hr]
      exact hpre
    let s : DsuSocket := { r.node.record [] [] with port := port, comfd := (p.world.allot K .com).1 }
    simp only [hp, hs, Option.bind_some, hne, if_false, hnode]
    exact .ite (fun _ => bindAsked_inMemory K pick hrep hsockets hbinds hL hfirst s rfl _)
      fun _ => bindFirst_inMemory K pick hrep hsockets hbinds hL hfirst s rfl _

theorem close_inMemory (hm : p.HeldIn m lost) (sockfd : Int) :
    ∃ m' lost', (p.inMemory m).close K sockfd = some ((close K p sockfd).inMemory m') ∧
      (close K p sockfd).HeldIn m' lost' ∧ lost'.length = (Call.close sockfd).loses p + lost.length := by
  have hself := hm
  obtain ⟨L, hrep, hsockets, hbinds⟩ := hm
  have hfindSocket := hrep.searchSockets sockfd
  have hfind := hrep.searchBinds sockfd
  have hmonitor := hrep.searchFds sockfd .monitor
  have hinternal := hrep.searchFds sockfd .internal
  have hclient := hrep.searchFds sockfd .nonInternal
  rw [hsockets] at hfindSocket
  rw [hbinds] at hfind hmonitor hinternal hclient
  unfold MemoryProc.close close Call.loses
  by_cases hstd : (sockfd = 0 || sockfd = 1 || sockfd = 2) = true
  · simp only [if_pos hstd]
    exact ⟨m, lost, rfl, hself, (Nat.zero_add _).symm⟩
  simp only [if_neg hstd]
  rcases hfindSocket with ⟨hp, hs⟩ | ⟨pre, r, post, hp, hs, hne, hL, hpre, hr⟩
  · rcases hfind with ⟨hp', hs'⟩ | ⟨pre, r, post, hp', hs', hne, hL, hpre, hr⟩
    · -- At most one record changes, and its nodes stay with it.
      simp only [hp, hs, hp', hs', Option.bind_some, ne_eq, not_true_eq_false, if_false, Option.isSome_none,
        Bool.false_eq_true, Option.none_or, Nat.zero_add]
      rcases hmonitor with ⟨hp, hs⟩ | ⟨pre, r, post, hp, hs, hne, hL, hpre, hr⟩
      · rcases hinternal with ⟨hp', hs'⟩ | ⟨pre, r, post, hp', hs', hne, hL, hpre, hr⟩
        · rcases hclient with ⟨hp'', hs''⟩ | ⟨pre, r, post, hp'', hs'', hne, hL, hpre, hr⟩
          · simp only [hp, hs, hp', hs', hp'', hs'', Option.bind_some, not_true_eq_false, if_false, Option.isSome_none,
              Bool.false_eq_true]
            exact ⟨m, lost, rfl, hself, rfl⟩
          · obtain ⟨m', hremove, hshows⟩ := hrep.removeFound (·.listens sockfd .nonInternal) hL hpre hr sockfd .nonInternal
            rw [hsockets, hbinds] at hshows
            simp only [hp, hs, hp', hs', hp'', hs'', hne, hremove, Option.bind_some, not_true_eq_false, not_false_eq_true,
              if_true, if_false, Option.isSome_none, Option.isSome_some, Bool.false_eq_true]
            exact ⟨m', lost, rfl, hshows, rfl⟩
        · obtain ⟨m', hremove, hshows⟩ := hrep.removeFound (·.listens sockfd .internal) hL hpre hr sockfd .internal
          rw [hsockets, hbinds] at hshows
          simp only [hp, hs, hp', hs', hne, hremove, Option.bind_some, not_true_eq_false, not_false_eq_true,
            if_true, if_false, Option.isSome_none, Option.isSome_some, Bool.false_eq_true]
          exact ⟨m', lost, rfl, hshows, rfl⟩
      · obtain ⟨-, n, hnode⟩ := hrep.read hL
        obtain ⟨m', hwrite, hshows⟩ := hrep.writeFound (·.listens sockfd .monitor) hL hpre hr
          ({ · with monitoring := false }) fun _ _ _ => rfl
        rw [hsockets, hbinds] at hshows
        simp only [hp, hs, hne, hnode, hwrite, Option.bind_some, not_false_eq_true, if_true, Option.isSome_some]
        exact ⟨m', lost, rfl, hshows, rfl⟩
    · obtain ⟨m', hremove, hrep', hlist⟩ := hrep.freeFound hL hpre hr
      rw [hbinds] at hlist
      simp only [hp, hs, hp', hs', Option.bind_some, ne_eq, not_true_eq_false, if_false, hne, not_false_eq_true, if_true,
        hremove, Option.isSome_none, Bool.false_eq_true, Option.none_or]
      refine ⟨m', r.nodes ++ lost, rfl, ⟨_, hrep', hsockets, ?_⟩, ?_⟩
      · rw [Function.update_self]
        exact hlist.symm
      · rw [List.length_append, r.length_nodes]
  · obtain ⟨m', hremove, hrep', hlist⟩ := hrep.freeFound hL hpre hr
    rw [hsockets] at hlist
    simp only [hp, hs, Option.bind_some, ne_eq, hne, not_false_eq_true, if_true, hremove, Option.isSome_some,
      Option.some_or]
    refine ⟨m', r.nodes ++ lost, rfl, ⟨_, hrep', ?_, hbinds⟩, ?_⟩
    · rw [Function.update_self]
      exact hlist.symm
    · rw [List.length_append, r.length_nodes]

/-! ### Calls and runs -/

/-- The two processes after a call, where the one on lists has come to `done`. -/
def Follows (lost : Nat) (got : Option (Option (MemoryProc × Result))) (done : Option (Proc × Result)) : Prop :=
  ∃ m lost', got = some (done.map fun a => (a.1.inMemory m, a.2)) ∧
    ∀ a, done = some a → a.1.HeldIn m lost' ∧ lost'.length = lost

theorem Agrees.follows {α : Type} {got : Option (α × MemoryProc)} {done : α × Proc} (h : Agrees lost got done)
    (result : α → Result) :
    Follows (0 + lost.length) (got.map fun a => some (a.2, result a.1)) (some (done.2, result done.1)) := by
  obtain ⟨m, rfl, hm⟩ := h
  refine ⟨m, lost, rfl, fun a ha => ?_⟩
  cases ha
  exact ⟨hm, (Nat.zero_add _).symm⟩

theorem call_inMemory (hm : p.HeldIn m lost) (c : Call) :
    Follows (c.loses p + lost.length) ((p.inMemory m).call K pick c) (p.call K c) := by
  unfold MemoryProc.call Proc.call
  by_cases hexit : p.exited = true
  · simp only [if_pos hexit]
    exact ⟨m, lost, rfl, nofun⟩
  simp only [if_neg hexit]
  cases c with
  | socket => exact (socket_inMemory K pick hm).follows .number
  | bind sockfd port => exact (bind_inMemory K pick hm sockfd port).follows .number
  | accept sockfd => exact (accept_inMemory K pick hm sockfd).follows .number
  | epollCtl epfd op fd event => exact (epollCtl_inMemory K hm epfd op fd event).follows .done
  | close sockfd =>
    obtain ⟨m', lost', hclose, hm', hlength⟩ := close_inMemory K hm sockfd
    refine ⟨m', lost', by simp only [hclose]; rfl, fun a ha => ?_⟩
    cases ha
    exact ⟨hm', hlength⟩
  | select nfds sets timeout rounds =>
    obtain ⟨m', hselect, hm'⟩ := select_inMemory K pick nfds sets timeout rounds hm
    refine ⟨m', lost, ?_, fun a ha => ?_⟩
    · simp only [hselect, Option.map_some, Option.map_map]
      rfl
    · obtain ⟨done, hdone, rfl⟩ := Option.map_eq_some_iff.mp ha
      exact ⟨hm' done hdone, (Nat.zero_add _).symm⟩
  | ppoll fds timeout =>
    obtain ⟨m', hppoll, hm'⟩ := ppoll_inMemory K pick hm fds timeout
    simp only [hppoll, Option.map_some]
    rcases hdone : ppoll K fds timeout p with ⟨p', result⟩
    rw [hdone] at hm'
    cases result with
    | overrun => exact ⟨m', lost, rfl, nofun⟩
    | returned n fds =>
      refine ⟨m', lost, rfl, fun a ha => ?_⟩
      cases ha
      exact ⟨hm', (Nat.zero_add _).symm⟩
    | exited =>
      refine ⟨m', lost, rfl, fun a ha => ?_⟩
      cases ha
      exact ⟨hm', (Nat.zero_add _).symm⟩
  | epollWait epfd events maxevents timeout =>
    obtain ⟨m', hwait, hm'⟩ := epollWait_inMemory K pick hm epfd events maxevents timeout
    refine ⟨m', lost, by simp only [hwait]; rfl, fun a ha => ?_⟩
    cases ha
    exact ⟨hm', (Nat.zero_add _).symm⟩

theorem calls_inMemory (cs : List Call) (hm : p.HeldIn m lost) :
    ∃ m' lost', (p.inMemory m).calls K pick cs = some ((p.calls K cs).map fun a => (a.1.inMemory m', a.2)) ∧
      ∀ a, p.calls K cs = some a → a.1.HeldIn m' lost' ∧ lost'.length = p.loses K cs + lost.length := by
  induction cs generalizing p m lost with
  | nil =>
    refine ⟨m, lost, rfl, fun a ha => ?_⟩
    cases ha
    exact ⟨hm, (Nat.zero_add _).symm⟩
  | cons c cs ih =>
    obtain ⟨m₁, lost₁, hcall, hm₁⟩ := call_inMemory K pick hm c
    unfold MemoryProc.calls Proc.calls Proc.loses
    rw [hcall, Option.bind_some]
    cases hdone : p.call K c with
    | none => exact ⟨m₁, lost₁, rfl, nofun⟩
    | some a =>
      obtain ⟨hheld, hlength⟩ := hm₁ a hdone
      obtain ⟨m', lost', hcalls, hm'⟩ := ih hheld
      refine ⟨m', lost', ?_, fun b hb => ?_⟩
      · simp only [Option.map_some, hcalls, Option.bind_some, Option.map_map]
        rfl
      · obtain ⟨b', hb', rfl⟩ := Option.map_eq_some_iff.mp hb
        obtain ⟨hheld', hlength'⟩ := hm' b' hb'
        refine ⟨hheld', ?_⟩
        rw [hlength', hlength, Option.map_some, Option.getD_some]
        omega

theorem Proc.Started.heldIn (h : p.Started) : p.HeldIn .start [] := by
  unfold Proc.HeldIn
  rw [h.sockets, h.binds]
  exact Memory.shows_start

/-- Whatever a program calls, its process in memory never touches memory that is not allocated, wherever `malloc` puts
    the nodes, and gives it the results of the process on lists. -/
theorem calls_safe (h : p.Started) (cs : List Call) :
    ∃ m, (p.inMemory .start).calls K pick cs = some ((p.calls K cs).map fun a => (a.1.inMemory m, a.2)) ∧
      ∀ a, p.calls K cs = some a → ∃ lost, a.1.HeldIn m lost := by
  obtain ⟨m, lost, hcalls, hm⟩ := calls_inMemory K pick cs h.heldIn
  exact ⟨m, hcalls, fun a ha => ⟨lost, (hm a ha).1⟩⟩

theorem sum_lists (l : List Laid) :
    ((l.flatMap Laid.lists).map fun x => x.2.length).sum =
      ((l.map Laid.sock).map fun r => r.fds.length + r.comfds.length).sum := by
  induction l with
  | nil => rfl
  | cons r l ih =>
    simp [ih, Laid.lists, Laid.sock, SocketNode.record, Nat.add_assoc]

/-- The nodes of a memory that shows these lists. -/
theorem Memory.Shows.sizes {sockets binds : List DsuSocket} (h : m.Shows sockets binds lost) :
    m.nodes.size = sockets.length + binds.length ∧
      m.fdNodes.size = ((sockets ++ binds).map fun r => r.fds.length + r.comfds.length).sum + lost.length := by
  obtain ⟨L, hrep, rfl, rfl⟩ := h
  refine ⟨by simpa using hrep.nodes.size_eq, ?_⟩
  rw [hrep.fdNodes.size_eq, sum_lists, ← List.map_append]
  rfl

/-- What is allocated after a run: one node for each record, one for each connection of a record, and those of the
    connections that the records removed by `close` had. -/
theorem calls_live {q : Proc} {results : List Result} (h : p.Started) (cs : List Call)
    (hcs : p.calls K cs = some (q, results)) :
    ∃ m, (p.inMemory .start).calls K pick cs = some (some (q.inMemory m, results)) ∧
      m.nodes.size = q.sockets.length + q.binds.length ∧
      m.fdNodes.size =
        ((q.sockets ++ q.binds).map fun r => r.fds.length + r.comfds.length).sum + p.loses K cs := by
  obtain ⟨m, lost, hcalls, hm⟩ := calls_inMemory K pick cs h.heldIn
  obtain ⟨hheld, hlength⟩ := hm _ hcs
  obtain ⟨hnodes, hfds⟩ := hheld.sizes
  refine ⟨m, by rw [hcalls, hcs]; rfl, hnodes, ?_⟩
  rw [hfds, hlength]
  rfl

/-- The node of a connection outlives the record of its bound socket. -/
theorem calls_live_close : ∃ m, (Proc.loaded.inMemory .start).calls soloKernel (fun _ => 1)
      [.socket, .bind 3 8080, .accept 3, .close 3] = some (some m) ∧ m.1.memory.fdNodes.size = 1 := by
  obtain ⟨m, hcalls, -, hsize⟩ := calls_live soloKernel (fun _ => 1) Proc.started_loaded
    [.socket, .bind 3 8080, .accept 3, .close 3] rfl
  exact ⟨_, hcalls, hsize⟩

/-- Every wait finds all that it asks for ready, and who has connected hangs up. -/
def partingKernel : Kernel :=
  { soloKernel with
    recv := fun _ _ => .closed
    select := fun _ _ => some { read := fun _ => true, write := fun _ => false, except := fun _ => false } }

/-- Two waits on a bound socket, where every node goes to the first free address: the handler of the second removes
    connection 5, which the first has accepted, while it walks over the connections. -/
theorem calls_safe_parting : ∃ (q : Proc) (m : Memory) (results : List Result),
    (Proc.loaded.inMemory .start).calls partingKernel (fun m => m.top)
      [.socket, .bind 3 8080, .select 4 ⟨some {3}, none, none⟩ none 1, .select 4 ⟨some {3}, none, none⟩ none 1] =
        some (some (q.inMemory m, results)) ∧
    q.binds.map DsuSocket.comfds = [[6]] ∧ ∃ lost, q.HeldIn m lost := by
  obtain ⟨m, hcalls, hheld⟩ := calls_safe partingKernel (fun m => m.top) Proc.started_loaded
    [.socket, .bind 3 8080, .select 4 ⟨some {3}, none, none⟩ none 1, .select 4 ⟨some {3}, none, none⟩ none 1]
  exact ⟨_, m, _, hcalls, rfl, hheld _ rfl⟩

end MemoryRuns
end OpenDSU
