import OpenDSU.Theorems.Besides

/-! What a whole call does besides one bound socket, where it is not a call on the socket itself. -/

open Relation

namespace OpenDSU

variable {K : Kernel} {own : List Int} {r r' : DsuSocket} {w w' : World} {l : List DsuSocket}

/-! ### All records -/

structure Besides (own : List Int) (a a' : List DsuSocket × World) : Prop where
  clear : ∀ r ∈ a'.1, r.Clear own
  stored : a'.1.map DsuSocket.stored = a.1.map DsuSocket.stored
  keeps : a.2.Keeps own a'.2

theorem Besides.trans {a b c : List DsuSocket × World} (h : Besides own a b) (h' : Besides own b c) : Besides own a c :=
  ⟨h'.clear, h'.stored.trans h.stored, h.keeps.trans h'.keeps⟩

theorem Besides.refl (hl : ∀ r ∈ l, r.Clear own) (h : w.Private own) : Besides own (l, w) (l, w) := ⟨hl, rfl, h.refl⟩

theorem exists_of_stored {l' : List DsuSocket} (h : l'.map DsuSocket.stored = l.map DsuSocket.stored) (hr : r ∈ l) :
    ∃ r' ∈ l', r'.stored = r.stored := by
  have hmem : r.stored ∈ l'.map DsuSocket.stored := h ▸ List.mem_map_of_mem hr
  exact List.mem_map.mp hmem

/-- The kernel's side alone moves on. -/
theorem Besides.world {a : List DsuSocket × World} (h : Besides own a (l, w)) (hw : w.Keeps own w') :
    Besides own a (l, w') :=
  ⟨h.clear, h.stored, h.keeps.trans hw⟩

/-- What each update does besides the socket, the walk does. -/
theorem Besides.walk {σ : Type} {f : DsuSocket → σ → DsuSocket × σ} (view : σ → World) {l : List DsuSocket}
    (hf : ∀ r ∈ l, ∀ s, r.Clear own → (view s).Private own → Beside own (r, view s) ((f r s).1, view (f r s).2)) (s : σ)
    (hl : ∀ r ∈ l, r.Clear own) (h : (view s).Private own) :
    Besides own (l, view s) ((walk f l s).1, view (walk f l s).2) := by
  induction l generalizing s with
  | nil => exact .refl hl h
  | cons r l ih =>
    obtain ⟨hr, hl⟩ := List.forall_mem_cons.mp hl
    obtain ⟨hfr, hfl⟩ := List.forall_mem_cons.mp hf
    have hone := hfr s hr h
    have hrest := ih hfl (f r s).2 hl hone.keeps.isPrivate
    rw [walk_cons]
    refine ⟨List.forall_mem_cons.mpr ⟨hone.clear, hrest.clear⟩, ?_, hone.keeps.trans hrest.keeps⟩
    rw [List.map_cons, List.map_cons, hone.stored, hrest.stored]

/-! ### The event calls -/

variable {p q : Proc}

/-- The process goes on, besides the socket. -/
abbrev Proc.GoesOn (own : List Int) (p q : Proc) : Prop := Besides own (p.binds, p.world) (q.binds, q.world)

theorem dsuTerminationDetection_keeps (h : w.Private own) (l : List DsuSocket) :
    w.Keeps own (dsuTerminationDetection K l w).2 := by
  induction l generalizing w with
  | nil => exact h.refl
  | cons r l ih =>
    have hstatus : w.Keeps own (w.waitStatus K r.port).2 := h.stay rfl rfl rfl
    rw [dsuTerminationDetection_cons]
    split
    · exact hstatus
    · exact hstatus.trans (ih hstatus.isPrivate)

section Calls
variable (hl : ∀ r ∈ p.binds, r.Clear own) (h : p.world.Private own)
include hl h

theorem dsuGoLive_goesOn : p.GoesOn own (dsuGoLive K p) := by
  have hactivate : p.world.Keeps own (dsuActivateProcess K p.world) := by
    unfold dsuActivateProcess
    simp only
    split <;> exact h.stay rfl rfl rfl
  unfold dsuGoLive
  split
  · exact .refl hl h
  · exact (Besides.refl hl h).world hactivate |>.trans
      (Besides.walk id (fun r _ _ hr h => dsuConfigureSocket_beside hr h) _ hl hactivate.isPrivate)

theorem dsuTerminate_goesOn : p.GoesOn own (dsuTerminate K p) := by
  refine (Besides.refl hl h).world ?_
  unfold dsuTerminate
  simp only
  split <;> exact h.stay rfl rfl rfl

theorem dsuInitializeEvent_goesOn : p.GoesOn own (dsuInitializeEvent K p) := by
  refine (dsuGoLive_goesOn (K := K) hl h).trans ?_
  have hlive := dsuGoLive_goesOn (K := K) hl h
  unfold dsuInitializeEvent
  generalize dsuGoLive K p = p at hlive ⊢
  have hmon : Besides own (p.binds, p.world) (walk (dsuMonitorFd K p.pgid) p.binds p.world) :=
    Besides.walk id (fun r _ _ hr h => dsuMonitorFd_beside hr h p.pgid) p.world hlive.clear hlive.keeps.isPrivate
  have hdet := hmon.world (dsuTerminationDetection_keeps (K := K) hmon.keeps.isPrivate
    (walk (dsuMonitorFd K p.pgid) p.binds p.world).1)
  simp only
  split
  · exact hdet.trans (dsuTerminate_goesOn (p := { p with
      binds := (walk (dsuMonitorFd K p.pgid) p.binds p.world).1
      world := (dsuTerminationDetection K (walk (dsuMonitorFd K p.pgid) p.binds p.world).1
        (walk (dsuMonitorFd K p.pgid) p.binds p.world).2).2 }) hdet.clear hdet.keeps.isPrivate)
  · exact hdet

/-! ### `select` -/

theorem selectAsk_goesOn (nfds : Int) (sets : FdSets) (timeout : Option Nat) :
    p.GoesOn own (selectAsk K p nfds sets timeout).proc := by
  have hpre := Besides.walk (f := dsuPreSelect K) SelectPass.world
    (fun _ _ _ hr h => dsuPreSelect_beside hr h rfl) (p.pass sets.read nfds) hl h
  refine hpre.trans (Besides.walk SelectPass.world (fun r _ s hr h => ?_) _ hpre.clear hpre.keeps.isPrivate)
  have hworld : (dsuSniffConn r s).2.world = s.world := by
    unfold dsuSniffConn
    split
    · rfl
    · simp only [foldl_listen_world]
      split <;> rfl
  have hbinds : (dsuSniffConn r s).1 = r := by
    unfold dsuSniffConn
    split <;> rfl
  rw [hworld, hbinds]
  exact .refl hr h

theorem selectServe_goesOn (found : FdSets) : p.GoesOn own (selectServe K p found).2.2 := by
  have hserve := Besides.walk (f := dsuHandleConn K) SelectPass.world
    (fun r _ s hr h => (dsuHandleConn_handles K r s).beside hr h) (p.pass found.read 0) hl h
  exact hserve.trans (Besides.walk SelectPass.world (fun _ _ _ hr h => dsuPostSelect_beside hr h rfl) _ hserve.clear
    hserve.keeps.isPrivate)

theorem selectRest_goesOn (nfds : Int) (sets : FdSets) (timeout : Option Nat) :
    p.GoesOn own (selectRest K p nfds sets timeout).1 := by
  have hask := selectAsk_goesOn (K := K) hl h nfds sets timeout
  have hwait := hask.world hask.keeps.isPrivate.tick
  unfold selectRest
  simp only
  split
  · exact hwait
  · exact hwait.trans (selectServe_goesOn (p := { (selectAsk K p nfds sets timeout).proc with
      world := (selectAsk K p nfds sets timeout).proc.world.tick }) hwait.clear hwait.keeps.isPrivate _)

theorem selectRound_goesOn (nfds : Int) (sets : FdSets) (timeout : Option Nat) :
    p.GoesOn own (selectRound K p nfds sets timeout).1 := by
  have hinit := dsuInitializeEvent_goesOn (K := K) hl h
  unfold selectRound
  simp only
  split
  · exact hinit
  · exact hinit.trans (selectRest_goesOn hinit.clear hinit.keeps.isPrivate nfds sets timeout)

theorem select_goesOn {nfds : Int} {sets : FdSets} {timeout : Option Nat} {rounds : Nat} {done : Proc × Round}
    (hs : select K nfds sets timeout rounds p = some done) : p.GoesOn own done.1 := by
  have hlast : p.GoesOn own (selectLast K nfds sets timeout rounds p) :=
    selectLast_inv (I := p.GoesOn own) (fun q _ hq => hq.trans (selectRound_goesOn hq.clear hq.keeps.isPrivate _ _ _))
      rounds p (.refl hl h)
  rw [(select_eq_last hs).1]
  exact hlast.trans (selectRound_goesOn hlast.clear hlast.keeps.isPrivate _ _ _)

end Calls

/-! ### `ppoll` -/

theorem dsuPrePollEntry_besides (e : PollFd) (hl : ∀ r ∈ l, r.Clear own) (h : w.Private own) :
    Besides own (l, w) (dsuPrePollEntry K e (l, w)).2 := by
  unfold dsuPrePollEntry
  simp only
  split
  · exact .refl hl h
  · rename_i r _
    split
    · have htry := tryMonitor_keeps (K := K) (r := r) h false
      cases (tryMonitor K r false w).1 with
      | refused => exact ⟨hl, rfl, htry⟩
      | free => exact ⟨hl, rfl, htry⟩
      | locked =>
        have hmap : ∀ {β : Type} (g : DsuSocket → β), (∀ x, g { x with locked := true } = g x) →
            (dsuSocketsUpdate (·.fd == e.fd) ({ · with locked := true }) l).map g = l.map g :=
          fun _ hg => map_dsuSocketsUpdate hg l
        refine ⟨fun x hx c hc => ?_, hmap DsuSocket.stored fun _ => rfl, htry⟩
        have hwatched : x.watched ∈ l.map DsuSocket.watched := by
          rw [← hmap DsuSocket.watched fun _ => rfl]
          exact List.mem_map_of_mem hx
        obtain ⟨y, hy, hsame⟩ := List.mem_map.mp hwatched
        exact hl y hy c (hsame ▸ hc)
    · exact .refl hl h

theorem walk_prePollEntry_besides (fds : List PollFd) (hl : ∀ r ∈ l, r.Clear own) (h : w.Private own) :
    Besides own (l, w) (walk (dsuPrePollEntry K) fds (l, w)).2 := by
  induction fds generalizing l w with
  | nil => exact .refl hl h
  | cons e fds ih =>
    have hone := dsuPrePollEntry_besides (K := K) e hl h
    exact hone.trans (ih hone.clear hone.keeps.isPrivate)

section Calls
variable (hl : ∀ r ∈ p.binds, r.Clear own) (h : p.world.Private own)
include hl h

theorem pollAsk_goesOn (fds : List PollFd) : p.GoesOn own (pollAsk K p fds).proc := by
  have hbinds : (pollAsk K p fds).proc.binds = (walk (dsuPrePollEntry K) fds (p.binds, p.world)).2.1 :=
    walk_sniffConnPoll_binds _ _
  unfold Proc.GoesOn
  rw [hbinds]
  exact walk_prePollEntry_besides fds hl h

theorem pollServe_goesOn (fds' : Nat → PollFd) (nfds nfds' : Nat) : p.GoesOn own (pollServe K p fds' nfds nfds') := by
  have hserve := Besides.walk (f := dsuHandleConnPoll K fds' nfds nfds') PollPass.world
    (fun r _ s hr h => (dsuHandleConnPoll_handles K r fds' nfds nfds' s).beside hr h)
    { world := p.world, correction := p.correction } hl h
  exact hserve.trans (Besides.walk id (fun _ _ _ hr h => unlockFd_beside hr h) _ hserve.clear hserve.keeps.isPrivate)

theorem ppollRest_goesOn (fds : List PollFd) (timeout : Option Nat) : p.GoesOn own (ppollRest K fds timeout p).1 := by
  have hask := pollAsk_goesOn (K := K) hl h fds
  have hwait := hask.world hask.keeps.isPrivate.tick
  have hserve := fun fds' => hwait.trans (pollServe_goesOn (K := K) (p := { (pollAsk K p fds).proc with
    world := (pollAsk K p fds).proc.world.tick }) hwait.clear hwait.keeps.isPrivate fds' fds.length (pollAsk K p fds).nfds)
  unfold ppollRest
  simp only
  split
  · exact hwait
  · split
    · exact hwait
    · split
      · exact hserve _
      · exact hserve _

theorem ppoll_goesOn (fds : List PollFd) (timeout : Option Nat) : p.GoesOn own (ppoll K fds timeout p).1 := by
  have hinit := dsuInitializeEvent_goesOn (K := K) hl h
  unfold ppoll
  simp only
  split
  · exact hinit
  · exact hinit.trans (ppollRest_goesOn hinit.clear hinit.keeps.isPrivate fds timeout)

end Calls

/-! ### The calls on sockets -/

/-- The process goes on, and has the record. -/
structure Proc.Turns (own : List Int) (r : DsuSocket) (p q : Proc) : Prop where
  keeps : p.world.Keeps own q.world
  record : ∃ r' ∈ q.binds, r'.stored = r.stored

theorem Proc.GoesOn.turns (h : p.GoesOn own q) (hr : r ∈ p.binds) : p.Turns own r q :=
  ⟨h.keeps, exists_of_stored h.stored hr⟩

theorem record_of_update {test : DsuSocket → Bool} {f : DsuSocket → DsuSocket} (hf : ∀ x, (f x).stored = x.stored)
    (hr : r ∈ l) : ∃ r' ∈ dsuSocketsUpdate test f l, r'.stored = r.stored :=
  exists_of_stored (map_dsuSocketsUpdate hf l) hr

theorem allot_keeps (h : w.Private own) (kind : Kind) :
    w.Keeps own (w.allot K kind).2 ∧ ((w.allot K kind).1 ∉ own ∨ (w.allot K kind).1 = -1) := by
  have hregs : (w.allot K kind).2.regs = w.regs := by
    unfold World.allot
    repeat' split
    all_goals rfl
  rcases w.allot_cases K kind with ⟨hnone, hw⟩ | ⟨c, hc, hw⟩
  · exact ⟨h.same hw hregs, Or.inr hnone⟩
  · obtain ⟨hnew, hkeeps⟩ := h.opens hw hregs
    exact ⟨hkeeps, Or.inl (hc ▸ hnew)⟩

theorem accept_keeps (h : w.Private own) (fd : Int) (kind : Kind) : w.Keeps own (w.accept K fd kind).2 := by
  unfold World.accept
  split
  · exact (allot_keeps h kind).1
  · exact h.tick

theorem dsuReadFd_keeps (h : w.Private own) (fd recvfd port : Int) (kind : Kind) :
    w.Keeps own (dsuReadFd K w fd recvfd port kind).2.2 := by
  have hregs : (w.recvmsg K fd kind).2.regs = w.regs := by
    unfold World.recvmsg
    repeat' split
    all_goals rfl
  rw [dsuReadFd_world]
  rcases w.recvmsg_cases K fd kind with ⟨-, hw⟩ | ⟨n, port', -, hw⟩
  · exact h.same hw hregs
  · exact (h.opens hw hregs).2

theorem dsuInheritFd_keeps {s : DsuSocket} (h : w.Private own) (hcomfd : s.comfd ∉ own) :
    w.Keeps own (dsuInheritFd K s w).2.2 := by
  rw [dsuInheritFd_eq]
  split
  · have hfirst := h.tick.trans (dsuReadFd_keeps (K := K) h.tick.isPrivate s.comfd s.shadowfd 0 .shadow)
    have hsecond := hfirst.trans (dsuReadFd_keeps (K := K) hfirst.isPrivate s.comfd 0
      (dsuReadFd K w.tick s.comfd s.shadowfd 0 .shadow).2.1 .com)
    exact hsecond.trans (hsecond.isPrivate.close hcomfd)
  · exact h.tick

theorem bindFirst_keeps (s : DsuSocket) (h : w.Private own) : w.Keeps own (bindFirst K p s w).2.world := by
  unfold bindFirst Proc.transfer openSems enterFirst
  simp only
  split <;> exact h.stay rfl rfl rfl

theorem bindInherit_keeps (s : DsuSocket) (h : w.Private own) : w.Keeps own (bindInherit K p s w).2.world := by
  unfold bindInherit Proc.transfer openSems enterInherit
  simp only
  split <;> exact h.stay rfl rfl rfl

/-- The connection that `bind` opens and closes is none of the descriptors. -/
theorem bind_keeps (h : p.world.Private own) (hpos : ∀ d ∈ own, 0 < d) (sockfd : Int) (port : Nat) :
    p.world.Keeps own (bind K p sockfd port).2.world := by
  unfold bind
  split
  · exact h.refl
  · rename_i s _
    obtain ⟨hallot, hcomfd⟩ := allot_keeps (K := K) h .com
    -- A `comfd` that could not be opened is -1, which is none of the descriptors either.
    have hnone : (p.world.allot K .com).1 ∉ own := by
      rcases hcomfd with hnew | hnone
      · exact hnew
      · intro hmem
        have := hpos _ hmem
        omega
    have hnamed := hallot.trans hallot.isPrivate.tick
    simp only
    generalize hn : dsuMonitorInit K { s with port := port, comfd := (p.world.allot K .com).1 }
      (p.world.allot K .com).2 = named
    have hworld : named.2 = (p.world.allot K .com).2.tick := by
      rw [← hn]
      rfl
    rw [hworld]
    split
    · have hinherit := hnamed.trans (dsuInheritFd_keeps (K := K)
        (s := { s with port := port, comfd := (p.world.allot K .com).1 }) hnamed.isPrivate hnone)
      split
      · exact hinherit.trans (bindInherit_keeps _ hinherit.isPrivate)
      · exact hinherit.trans (bindFirst_keeps _ hinherit.isPrivate)
    · exact hnamed.trans (bindFirst_keeps _ hnamed.isPrivate)

section Sockets
variable (hr : r ∈ p.binds) (h : p.world.Private own)
include hr h

theorem socket_turns : p.Turns own r (socket K p).2 := by
  have hkeeps := (allot_keeps (K := K) h .user).1
  unfold socket
  simp only
  split <;> exact ⟨hkeeps, r, hr, rfl⟩

theorem bind_turns (sockfd : Int) (port : Nat) (hpos : ∀ d ∈ own, 0 < d) : p.Turns own r (bind K p sockfd port).2 := by
  refine ⟨bind_keeps h hpos sockfd port, r, ?_, rfl⟩
  have hbound : ∀ {s w}, Bound p s w (bind K p sockfd port).2 → r ∈ (bind K p sockfd port).2.binds := by
    intro s w hb
    obtain ⟨s', hbinds, -⟩ := hb.binds
    rw [hbinds]
    exact List.mem_append_left _ hr
  rcases bind_cases K p sockfd port with ⟨-, hsame⟩ | ⟨s, -, ⟨-, hb⟩ | ⟨-, hb⟩⟩
  · rwa [hsame]
  · exact hbound hb
  · exact hbound hb

theorem accept_turns (sockfd : Int) : p.Turns own r (accept K p sockfd).2 := by
  have hkeeps := fun kind => accept_keeps (K := K) h (dsuShadowfd p.binds sockfd) kind
  unfold accept
  simp only
  generalize (if (dsuSocketsSearchFd p.binds sockfd).isSome then Kind.client else Kind.user) = kind
  split
  · exact ⟨hkeeps kind, r, hr, rfl⟩
  · exact ⟨hkeeps kind, record_of_update (fun _ => rfl) hr⟩

/-- Closing anything but the descriptors of the record. -/
theorem close_turns {sockfd : Int} (hown : sockfd ∉ own) (hfd : r.fd ≠ sockfd) : p.Turns own r (close K p sockfd) := by
  have hkeeps : p.world.Keeps own (p.world.close K sockfd) := h.close hown
  unfold close
  repeat' split
  · exact ⟨hkeeps, r, hr, rfl⟩
  · exact ⟨hkeeps, r, hr, rfl⟩
  · exact ⟨hkeeps, r, (List.mem_eraseP_of_neg (by simpa using hfd)).mpr hr, rfl⟩
  · exact ⟨hkeeps, record_of_update (fun _ => rfl) hr⟩
  · exact ⟨hkeeps, record_of_update (fun _ => rfl) hr⟩
  · exact ⟨hkeeps, record_of_update (fun _ => rfl) hr⟩
  · exact ⟨hkeeps, r, hr, rfl⟩

/-- `epoll_ctl` on another descriptor. -/
theorem epollCtl_turns (hK : ∀ w, K.epollCtl w = true) (epfd : Int) (op : EpollOp) {fd : Int} (event : EpollEvent)
    (hown : fd ∉ own) (hfd : r.fd ≠ fd) (hshadow : ∀ x ∈ p.binds, x.fd = fd → x.shadowfd ∉ own) :
    p.Turns own r (epollCtl K p epfd op fd event).2 := by
  unfold epollCtl
  split
  · exact ⟨h.epollCtl hK epfd op event false hown, r, hr, rfl⟩
  · rename_i x hx
    obtain ⟨hmem, hxfd⟩ := mem_of_search_fd hx
    have hne : r ≠ x := fun he => hfd (he ▸ hxfd)
    obtain ⟨pre, post, hbinds, hupdate⟩ :=
      dsuSocketsUpdate_of_find hx ({ · with ev := if op = .del then noEvent else event })
    refine ⟨h.epollCtl hK epfd op event false (hshadow x hmem hxfd), r, ?_, rfl⟩
    simp only [hupdate]
    have hr : r ∈ pre ∨ r ∈ post := by simpa [hbinds, hne] using hr
    rcases hr with hr | hr <;> simp [hr]

end Sockets

end OpenDSU
