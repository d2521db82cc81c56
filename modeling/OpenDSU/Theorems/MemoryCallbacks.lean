import OpenDSU.Theorems.MemoryPasses

/-! The callbacks of the passes, each in memory and on lists. -/

namespace OpenDSU
namespace Memory
open Heap

variable (K : Kernel) (pick : Memory → Nat)

/-! ### Callbacks on fields -/

theorem quitSection_blind (st : Status) (r : DsuSocket) (fds comfds : List Int) :
    quitSection st { r with fds := fds, comfds := comfds } =
      ((quitSection st r).1, { (quitSection st r).2 with fds := fds, comfds := comfds }) := by
  have hquits : DsuSocket.quits { r with fds := fds, comfds := comfds } st = r.quits st := rfl
  unfold quitSection
  rw [hquits]
  split <;> rfl

theorem monitorSection_blind (pgid : Int) (st : Status) (r : DsuSocket) (fds comfds : List Int) :
    monitorSection pgid st { r with fds := fds, comfds := comfds } =
      ((monitorSection pgid st r).1, { (monitorSection pgid st r).2 with fds := fds, comfds := comfds }) := by
  unfold monitorSection
  rw [quitSection_blind]
  rfl

theorem dsuMonitorFd_blind (pgid : Int) : Blind (dsuMonitorFd K pgid) := by
  intro r w fds comfds
  unfold dsuMonitorFd
  simp only [monitorSection_blind]
  split
  · rfl
  · rfl

theorem dsuConfigureSocket_blind : Blind (dsuConfigureSocket K) := fun _ _ _ _ => rfl

theorem unlockFd_blind : Blind unlockFd := by
  intro r w fds comfds
  unfold unlockFd
  simp only
  split
  · rfl
  · rfl

theorem dsuPreSelect_blind : Blind (dsuPreSelect K) := by
  intro r s fds comfds
  have htry : ∀ t w, tryMonitor K { r with fds := fds, comfds := comfds } t w = tryMonitor K r t w := fun _ _ => rfl
  unfold dsuPreSelect
  simp only [htry]
  split
  · split
    · split <;> rfl
    · rfl
  · rfl

theorem dsuPostSelect_blind : Blind dsuPostSelect := by
  intro r s fds comfds
  unfold dsuPostSelect
  simp only [unlockFd_blind r s.world fds comfds]
  split <;> rfl

theorem dsuEpollShadowfd_blind (epollfd : Int) : Blind (dsuEpollShadowfd K epollfd) := by
  intro r w fds comfds
  have htry : ∀ t w, tryMonitor K { r with fds := fds, comfds := comfds } t w = tryMonitor K r t w := fun _ _ => rfl
  unfold dsuEpollShadowfd
  simp only [htry]
  split
  · split <;> rfl
  · rfl

theorem dsuEpollOriginalfd_blind (epollfd : Int) : Blind (dsuEpollOriginalfd K epollfd) := by
  intro r w fds comfds
  unfold dsuEpollOriginalfd
  simp only
  split <;> rfl

theorem openSems_blind : Blind (openSems K) := fun _ _ _ _ => rfl

theorem enterFirst_blind (pgid : Int) : Blind (enterFirst K pgid) := by
  intro r w fds comfds
  unfold enterFirst
  simp only
  split <;> rfl

theorem enterInherit_blind (pgid : Int) : Blind (enterInherit K pgid) := by
  intro r w fds comfds
  unfold enterInherit
  simp only
  split <;> rfl

theorem dsuInheritFd_blind (r : DsuSocket) (w : World) (fds comfds : List Int) :
    dsuInheritFd K { r with fds := fds, comfds := comfds } w =
      ((dsuInheritFd K r w).1, { (dsuInheritFd K r w).2.1 with fds := fds, comfds := comfds },
        (dsuInheritFd K r w).2.2) := by
  unfold dsuInheritFd
  simp only
  split <;> rfl

/-! ### Answers -/

theorem answerSection_blind (st : Status) (r : DsuSocket) (fds comfds : List Int) :
    answerSection st { r with fds := fds, comfds := comfds } =
      ((answerSection st r).1, { (answerSection st r).2 with fds := fds, comfds := comfds }) := by
  unfold answerSection
  simp only
  split <;> rfl

theorem answerConn_answers : Answers (answerConn K) := by
  intro c r w fds comfds
  unfold answerConn
  rcases w.recv K c with ⟨res, w⟩
  cases res with
  | closed => rfl
  | again => rfl
  | error => rfl
  | request =>
    simp only [answerSection_blind]
    rfl

theorem answerSelect_answers : Answers (answerSelect K) := by
  intro c r s fds comfds
  unfold answerSelect
  rw [answerConn_answers]
  split <;> rfl

theorem answerPoll_answers (fd : Int) : Answers (answerPoll K fd) := by
  intro c r w fds comfds
  unfold answerPoll
  rw [answerConn_answers]
  split <;> rfl

theorem answerEpoll_answers (epollfd : Int) : Answers (answerEpoll K epollfd) := by
  intro c r s fds comfds
  unfold answerEpoll
  rw [answerConn_answers]
  simp only
  split
  · split
    · simp
    · simp
  · rfl

/-! ### Handlers -/

section Handlers
variable {σ τ : Type} {m : Memory} {L : Layout} {lost : List Nat} {r : Laid} {pre post : List Laid} {a : Nat}

/-- Work that begins by reading the node of its record. -/
theorem Leaves.read {k : Cell SocketNode → Option (Memory × σ)} {out : DsuSocket × σ}
    (hm : m.Represents (Function.update L .binds (pre ++ r :: post)) lost)
    (hk : ∀ n, Leaves L lost pre post a (k { val := r.node, next := n }) out) :
    Leaves L lost pre post a ((m.nodes r.addr).bind k) out := by
  obtain ⟨n, hnode⟩ := hm.node
  rw [hnode]
  exact hk n

theorem acceptConn_leaves (hm : m.Represents (Function.update L .binds (pre ++ r :: post)) lost) (w : World) :
    Leaves L lost pre post r.addr (acceptConn K pick r.addr (m, w)) (OpenDSU.acceptConn K r.sock w) := by
  refine .read hm fun n => ?_
  have hcomfd : r.sock.comfd = r.node.comfd := rfl
  unfold OpenDSU.acceptConn
  rw [hcomfd]
  simp only
  split
  · exact addFds_leaves hm pick _ .internal _
  · exact leaves_self hm _

/-- The loop over `comfds`, from its start. -/
theorem comfds_leaves {answer : Int → DsuSocket → σ → Bool × DsuSocket × σ} (hans : Answers answer)
    (hm : m.Represents (Function.update L .binds (pre ++ r :: post)) lost) (s : σ) :
    Leaves L lost pre post r.addr (visitComfds answer r.addr m.top r.node.comfds (m, s))
      (visit answer r.sock.comfds r.sock s) := by
  obtain ⟨rest, hmade, -⟩ := hm.made_list (Function.update_self ..) .internal
  have hchain : Chain m.fdNodes r.node.comfds r.comfds 0 := hmade.chains _ List.mem_cons_self
  have hlength : r.comfds.length < m.top := hmade.length_lt hm.pos fun a ha => hm.top a (Or.inr ha)
  rw [hchain.eq_first]
  exact visitComfds_leaves hans hm (List.nil_append _).symm m.top hlength s

theorem visit_select (cs : List Int) (r : DsuSocket) (s : SelectPass) :
    visit (answerSelect K) cs r s = dsuHandleComfds K cs r s := by
  induction cs generalizing r s with
  | nil => rfl
  | cons c cs ih =>
    unfold visit dsuHandleComfds answerSelect
    split
    · exact ih _ _
    · exact ih _ _

theorem dsuSniffConn_does : Does dsuSniffConn OpenDSU.dsuSniffConn := by
  intro L lost pre post m r hm s
  unfold dsuSniffConn OpenDSU.dsuSniffConn
  simp only
  split
  · exact leaves_self hm s
  · exact sniff_does (fun r s => if r.monitoring then s.listen r.comfd else s) SelectPass.listen
      (fun _ _ _ _ => rfl) hm s

theorem dsuHandleConn_does : Does (dsuHandleConn K pick) (OpenDSU.dsuHandleConn K) := by
  intro L lost pre post m r hm s
  refine .read hm fun n => ?_
  have hcomfd : r.sock.comfd = r.node.comfd := rfl
  have hrest : ∀ {r' : Laid} {m' : Memory} (t : SelectPass), r'.addr = r.addr →
      m'.Represents (Function.update L .binds (pre ++ r' :: post)) lost →
      Leaves L lost pre post r.addr
        ((m'.nodes r.addr).bind fun c => visitComfds (answerSelect K) r.addr m'.top c.val.comfds (m', t))
        (dsuHandleComfds K r'.sock.comfds r'.sock t) := by
    intro r' m' t haddr hm'
    rw [← visit_select, ← haddr]
    exact .read hm' fun _ => comfds_leaves (answerSelect_answers K) hm' t
  unfold OpenDSU.dsuHandleConn
  rw [hcomfd]
  simp only
  split
  · have hacc := (acceptConn_leaves K pick hm s.world).map fun w => s.served r.node.comfd w
    exact hacc.bind fun m' r' haddr hsock hm' => hsock ▸ hrest _ haddr hm'
  · exact hrest s rfl hm

theorem visit_poll (fd : Int) (cs : List Int) (r : DsuSocket) (w : World) :
    visit (answerPoll K fd) cs r w = dsuHandleComfdsPoll K fd cs r w := by
  induction cs generalizing r w with
  | nil => rfl
  | cons c cs ih =>
    unfold visit dsuHandleComfdsPoll answerPoll
    split
    · exact ih _ _
    · exact ih _ _

theorem dsuSniffConnPoll_does : Does dsuSniffConnPoll OpenDSU.dsuSniffConnPoll :=
  fun hm s => sniff_does (fun r a => if r.monitoring then pollAppend a r.comfd else a) pollAppend
    (fun _ _ _ _ => rfl) hm s

theorem dsuHandleEntryPoll_leaves (hm : m.Represents (Function.update L .binds (pre ++ r :: post)) lost) (e : PollFd)
    (s : PollPass) :
    Leaves L lost pre post r.addr (dsuHandleEntryPoll K pick r.addr (m, s) e)
      (OpenDSU.dsuHandleEntryPoll K (r.sock, s) e) := by
  have hcomfd : r.sock.comfd = r.node.comfd := rfl
  unfold dsuHandleEntryPoll OpenDSU.dsuHandleEntryPoll
  simp only
  split
  · exact leaves_self hm s
  · refine .read hm fun n => ?_
    rw [hcomfd]
    simp only
    split
    · exact (acceptConn_leaves K pick hm s.world).map (PollPass.mk · (s.correction + 1))
    · rw [← visit_poll]
      exact (comfds_leaves (answerPoll_answers K e.fd) hm s.world).map (PollPass.mk · (s.correction + 1))

theorem foldlM_leaves (es : List PollFd) (hm : m.Represents (Function.update L .binds (pre ++ r :: post)) lost)
    (s : PollPass) :
    Leaves L lost pre post r.addr (es.foldlM (dsuHandleEntryPoll K pick r.addr) (m, s))
      (es.foldl (OpenDSU.dsuHandleEntryPoll K) (r.sock, s)) := by
  induction es generalizing m r s with
  | nil => exact leaves_self hm s
  | cons e es ih =>
    refine (dsuHandleEntryPoll_leaves K pick hm e s).bind fun m' r' haddr hsock hm' => ?_
    rw [← haddr]
    have hrest := ih hm' (OpenDSU.dsuHandleEntryPoll K (r.sock, s) e).2
    rw [hsock] at hrest
    exact hrest

theorem dsuHandleConnPoll_does (fds : Nat → PollFd) (start stop : Nat) :
    Does (dsuHandleConnPoll K pick fds start stop) (OpenDSU.dsuHandleConnPoll K fds start stop) :=
  fun hm s => foldlM_leaves K pick _ hm s

theorem visit_epoll (epollfd : Int) (cs : List Int) (e : Event) (r : DsuSocket) (w : World) :
    visit (answerEpoll K epollfd) cs r (e, w) =
      ((dsuHandleComfdsEpoll K epollfd cs e r w).2.1, (dsuHandleComfdsEpoll K epollfd cs e r w).1,
        (dsuHandleComfdsEpoll K epollfd cs e r w).2.2) := by
  induction cs generalizing e r w with
  | nil => rfl
  | cons c cs ih =>
    unfold visit dsuHandleComfdsEpoll answerEpoll
    simp only
    split
    · split
      · exact ih _ _ _
      · exact ih _ _ _
    · exact ih _ _ _

theorem dsuEpollInternalConn_does (epollfd : Int) :
    Does (dsuEpollInternalConn K epollfd) (OpenDSU.dsuEpollInternalConn K epollfd) :=
  fun hm s => sniff_does (fun r w => if r.monitoring then epollListen K epollfd w r.comfd else w)
    (epollListen K epollfd) (fun _ _ _ _ => rfl) hm s

/-- The body of the handler of `epoll_wait`, with the event among what the work leaves. -/
theorem dsuHandleEntryEpoll_leaves (epollfd : Int)
    (hm : m.Represents (Function.update L .binds (pre ++ r :: post)) lost) (e : Event) (w : World) :
    Leaves L lost pre post r.addr
      ((dsuHandleEntryEpoll K pick epollfd r.addr e (m, w)).map fun a => (a.2.1, a.1, a.2.2))
      ((OpenDSU.dsuHandleEntryEpoll K epollfd e (r.sock, w)).2.1,
        (OpenDSU.dsuHandleEntryEpoll K epollfd e (r.sock, w)).1,
        (OpenDSU.dsuHandleEntryEpoll K epollfd e (r.sock, w)).2.2) := by
  have hcomfd : r.sock.comfd = r.node.comfd := rfl
  obtain ⟨n, hnode⟩ := hm.node
  unfold dsuHandleEntryEpoll OpenDSU.dsuHandleEntryEpoll
  simp only [hcomfd, hnode, Option.bind_some]
  by_cases hevents : e.ev.events = 0
  · simp only [if_pos hevents]
    exact leaves_self hm (e, w)
  · by_cases hcom : e.ev.data.fd = r.node.comfd
    · simp only [if_neg hevents, if_pos hcom, Option.map_map]
      exact (acceptConn_leaves K pick hm w).map fun w => (e, w)
    · have hvisit := comfds_leaves (answerEpoll_answers K epollfd) hm (e, w)
      rw [visit_epoll] at hvisit
      simp only [if_neg hevents, if_neg hcom, Option.map_map]
      exact hvisit.map fun b => b

theorem dsuHandleEntriesEpoll_leaves (epollfd : Int) (es : List Event)
    (hm : m.Represents (Function.update L .binds (pre ++ r :: post)) lost) (w : World) :
    Leaves L lost pre post r.addr
      ((dsuHandleEntriesEpoll K pick epollfd r.addr es (m, w)).map fun a => (a.2.1, a.1, a.2.2))
      ((walk (OpenDSU.dsuHandleEntryEpoll K epollfd) es (r.sock, w)).2.1,
        (walk (OpenDSU.dsuHandleEntryEpoll K epollfd) es (r.sock, w)).1,
        (walk (OpenDSU.dsuHandleEntryEpoll K epollfd) es (r.sock, w)).2.2) := by
  induction es generalizing m r w with
  | nil => exact leaves_self hm ([], w)
  | cons e es ih =>
    obtain ⟨m', r', hgot, haddr, hsock, hm'⟩ := dsuHandleEntryEpoll_leaves K pick epollfd hm e w
    obtain ⟨⟨e', m₁, w₁⟩, hentry, hout⟩ := Option.map_eq_some_iff.mp hgot
    obtain ⟨rfl, rfl, rfl⟩ : m₁ = m' ∧ _ ∧ _ := by simpa using hout
    have hrest := (ih hm' (OpenDSU.dsuHandleEntryEpoll K epollfd e (r.sock, w)).2.2).map
      fun b => ((OpenDSU.dsuHandleEntryEpoll K epollfd e (r.sock, w)).1 :: b.1, b.2)
    rw [hsock, haddr] at hrest
    unfold dsuHandleEntriesEpoll
    rw [hentry, Option.bind_some, Option.map_map]
    rw [Option.map_map] at hrest
    exact hrest

theorem dsuHandleConnEpoll_does (epollfd : Int) :
    Does (dsuHandleConnEpoll K pick epollfd) (OpenDSU.dsuHandleConnEpoll K epollfd) :=
  fun hm s => dsuHandleEntriesEpoll_leaves K pick epollfd s.1 hm s.2

end Handlers

end Memory
end OpenDSU
