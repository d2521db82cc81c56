import OpenDSU.Theorems.MemoryCallbacks

/-! The process in memory goes along with the process on lists, call by call. -/

namespace OpenDSU
open Heap

namespace Memory
variable {σ : Type} {m : Memory} {L : Layout} {lost : List Nat} {v : ListVar} {sockets binds : List DsuSocket}
variable (K : Kernel) (pick : Memory → Nat)

/-- The lists of records that a program would read from this memory, with the nodes that it has lost. -/
def Shows (m : Memory) (sockets binds : List DsuSocket) (lost : List Nat) : Prop :=
  ∃ L, m.Represents L lost ∧ (L .sockets).map Laid.sock = sockets ∧ (L .binds).map Laid.sock = binds

theorem shows_start : start.Shows [] [] [] := ⟨_, represents_start, rfl, rfl⟩

/-- A pass over the records in memory is a walk over the list of them. -/
theorem Shows.pass {body : Nat → Memory × σ → Option (Memory × σ)} {f : DsuSocket → σ → DsuSocket × σ}
    (hm : m.Shows sockets binds lost) (hbody : Does body f) (s : σ) :
    ∃ m', Memory.pass body (m, s) = some (m', (walk f binds s).2) ∧ m'.Shows sockets (walk f binds s).1 lost := by
  obtain ⟨L, hrep, rfl, rfl⟩ := hm
  obtain ⟨m', l, hpass, hl, hrep'⟩ := pass_spec hbody hrep s
  exact ⟨m', hpass, _, hrep', rfl, hl⟩

/-! ### Searches, and writes through the pointer found -/

/-- A search in memory, with what it comes to on the list: null where no record passes the test, else the address of
    the first one that does. -/
def Finds (l : List Laid) (found : DsuSocket → Bool) (p : Option Nat) (s : Option DsuSocket) : Prop :=
  (p = some 0 ∧ s = none) ∨
  ∃ pre r post, p = some r.addr ∧ s = some r.sock ∧ r.addr ≠ 0 ∧ l = pre ++ r :: post ∧
    (∀ x ∈ pre, found x.sock = false) ∧ found r.sock = true

theorem Represents.finds (h : m.Represents L lost) (v : ListVar) {test : SocketNode → Option Bool}
    {found : DsuSocket → Bool} (htest : ∀ r ∈ L v, test r.node = some (found r.sock)) :
    Finds (L v) found (Linked.search test m.nodes m.top (m.list v).head) (((L v).map Laid.sock).find? found) := by
  rcases search_cases h v htest with ⟨hsearch, hnone⟩ | ⟨pre, r, post, hL, hpre, hr, hne, hsearch⟩
  · refine Or.inl ⟨hsearch, List.find?_eq_none.mpr fun s hs => ?_⟩
    obtain ⟨r, hr, rfl⟩ := List.mem_map.mp hs
    simp [hnone r hr]
  · refine Or.inr ⟨pre, r, post, hsearch, ?_, hne, hL, hpre, hr⟩
    refine List.find?_eq_some_iff_append.mpr ⟨hr, pre.map Laid.sock, post.map Laid.sock, by simp [hL], ?_⟩
    simpa using hpre

theorem Represents.searchSockets (h : m.Represents L lost) (sockfd : Int) :
    Finds (L .sockets) (·.fd == sockfd) (m.dsuSocketsSearchFd m.sockets sockfd)
      (OpenDSU.dsuSocketsSearchFd ((L .sockets).map Laid.sock) sockfd) :=
  h.finds .sockets fun _ _ => rfl

theorem Represents.searchBinds (h : m.Represents L lost) (sockfd : Int) :
    Finds (L .binds) (·.fd == sockfd) (m.dsuSocketsSearchFd m.binds sockfd)
      (OpenDSU.dsuSocketsSearchFd ((L .binds).map Laid.sock) sockfd) :=
  h.finds .binds fun _ _ => rfl

theorem Represents.searchShadowfd (h : m.Represents L lost) (sockfd : Int) :
    Finds (L .binds) (·.shadowfd == sockfd) (m.dsuSocketsSearchShadowfd m.binds sockfd)
      (OpenDSU.dsuSocketsSearchShadowfd ((L .binds).map Laid.sock) sockfd) :=
  h.finds .binds fun _ _ => rfl

theorem Represents.searchFds (h : m.Represents L lost) (sockfd : Int) (flag : FdFlag) :
    Finds (L .binds) (·.listens sockfd flag) (m.dsuSocketsSearchFds m.binds sockfd flag)
      (OpenDSU.dsuSocketsSearchFds ((L .binds).map Laid.sock) sockfd flag) :=
  h.finds .binds fun _ hr => listens_spec h hr sockfd flag

/-- A write through the pointer that a search returned. -/
theorem update_found {found : DsuSocket → Bool} {pre post : List Laid} {r : Laid} (hpre : ∀ x ∈ pre, found x.sock = false)
    (hr : found r.sock = true) (f : DsuSocket → DsuSocket) :
    dsuSocketsUpdate found f ((pre ++ r :: post).map Laid.sock) =
      pre.map Laid.sock ++ f r.sock :: post.map Laid.sock := by
  induction pre with
  | nil => simp [dsuSocketsUpdate, hr]
  | cons x pre ih =>
    obtain ⟨hx, hpre⟩ := List.forall_mem_cons.mp hpre
    simpa [dsuSocketsUpdate, hx] using ih hpre

theorem Shows.dsuShadowfd (hm : m.Shows sockets binds lost) (fd : Int) :
    m.dsuShadowfd fd = some (OpenDSU.dsuShadowfd binds fd) := by
  obtain ⟨L, hrep, rfl, rfl⟩ := hm
  unfold Memory.dsuShadowfd OpenDSU.dsuShadowfd
  rcases hrep.searchBinds fd with ⟨hp, hs⟩ | ⟨pre, r, post, hp, hs, hne, hL, -, -⟩
  · simp [hp, hs]
  · obtain ⟨-, n, hnode⟩ := hrep.read hL
    simp [hp, hs, hne, hnode, Laid.sock, SocketNode.record]

theorem Shows.dsuOriginalfd (hm : m.Shows sockets binds lost) (shadowfd : Int) :
    m.dsuOriginalfd shadowfd = some (OpenDSU.dsuOriginalfd binds shadowfd) := by
  obtain ⟨L, hrep, rfl, rfl⟩ := hm
  unfold Memory.dsuOriginalfd OpenDSU.dsuOriginalfd
  rcases hrep.searchShadowfd shadowfd with ⟨hp, hs⟩ | ⟨pre, r, post, hp, hs, hne, hL, -, -⟩
  · simp [hp, hs]
  · obtain ⟨-, n, hnode⟩ := hrep.read hL
    simp [hp, hs, hne, hnode, Laid.sock, SocketNode.record]

theorem Shows.dsuIsInternalConn (hm : m.Shows sockets binds lost) (fd : Int) :
    m.dsuIsInternalConn fd = some (OpenDSU.dsuIsInternalConn binds fd) := by
  obtain ⟨L, hrep, rfl, rfl⟩ := hm
  unfold Memory.dsuIsInternalConn OpenDSU.dsuIsInternalConn
  -- The second search is made only where the first finds nothing.
  rcases hrep.searchFds fd .monitor with ⟨hp, hs⟩ | ⟨_, r, _, hp, hs, hne, -⟩
  · rcases hrep.searchFds fd .internal with ⟨hp', hs'⟩ | ⟨_, r, _, hp', hs', hne, -⟩
    · simp [hp, hs, hp', hs']
    · simp [hp, hs, hp', hs', hne]
  · simp [hp, hs, hne]

theorem Shows.epollRestore (hm : m.Shows sockets binds lost) (e : Event) :
    m.epollRestore e = some (OpenDSU.epollRestore binds e) := by
  obtain ⟨L, hrep, rfl, rfl⟩ := hm
  unfold Memory.epollRestore OpenDSU.epollRestore
  rcases hrep.searchShadowfd e.ev.data.fd with ⟨hp, hs⟩ | ⟨pre, r, post, hp, hs, hne, hL, -, -⟩
  · simp [hp, hs]
  · obtain ⟨-, n, hnode⟩ := hrep.read hL
    simp [hp, hs, hne, hnode, Laid.sock, SocketNode.record]

theorem Shows.dsuEpollCorrectEvents (hm : m.Shows sockets binds lost) (nfds : Nat) (events : Nat → Event) :
    m.dsuEpollCorrectEvents nfds events = some (OpenDSU.dsuEpollCorrectEvents binds nfds events) := by
  -- The loop reads memory and writes none of it, so every pass meets the same lists.
  have hdrop : ∀ e : Event, m.dsuIsInternalConn e.ev.data.fd = some (OpenDSU.dsuIsInternalConn binds e.ev.data.fd) :=
    fun e => hm.dsuIsInternalConn e.ev.data.fd
  exact compactM_eq hdrop hm.epollRestore 0 nfds events

theorem Shows.dsuSetReventsFrom (hm : m.Shows sockets binds lost) (fds' : Nat → PollFd) (n i o : Nat) (fds : List PollFd) :
    m.dsuSetReventsFrom fds' n i o fds = some (OpenDSU.dsuSetReventsFrom binds fds' n i o fds) := by
  induction n generalizing i o fds with
  | zero => rfl
  | succ n ih =>
    unfold Memory.dsuSetReventsFrom OpenDSU.dsuSetReventsFrom
    rw [hm.dsuOriginalfd, Option.bind_some]
    split
    · exact ih _ _ _
    · cases seekFd (OpenDSU.dsuOriginalfd binds (fds' i).fd) (fds.drop (i + o)) (i + o) with
      | none => rfl
      | some k => exact ih _ _ _

/-! ### The start of every event call -/

/-- The detection tests the two pointers of a record against null. -/
theorem Represents.null_iff (h : m.Represents L lost) {pre post : List Laid} {r : Laid} (hL : L v = pre ++ r :: post) :
    (r.node.fds != 0) = !r.sock.fds.isEmpty ∧ (r.node.comfds != 0) = !r.sock.comfds.isEmpty := by
  -- No node stands at address 0, so null is the head of the empty chain alone.
  have hnull : ∀ {p : Nat} {l : List (Nat × Int)}, Chain m.fdNodes p l 0 → (p != 0) = !(l.map Prod.snd).isEmpty := by
    intro p l hl
    cases l with
    | nil => simp [chain_nil.mp hl]
    | cons c l => simp [hl.1, hl.2.1]
  obtain ⟨rest, hfds, -⟩ := h.made_list hL .nonInternal
  obtain ⟨rest', hcomfds, -⟩ := h.made_list hL .internal
  exact ⟨hnull (hfds.chains _ List.mem_cons_self), hnull (hcomfds.chains _ List.mem_cons_self)⟩

theorem detection_spec (h : m.Represents L lost) {pre post : List Laid} (hL : L .binds = pre ++ post) (fuel : Nat)
    (hfuel : post.length < fuel) (w : World) :
    m.dsuTerminationDetection K fuel (first (post.map Laid.cell)) w =
      some (OpenDSU.dsuTerminationDetection K (post.map Laid.sock) w) := by
  -- On the records that are still to visit; those before only say where in the chain the pointer stands.
  induction post generalizing pre fuel w with
  | nil =>
    obtain ⟨fuel, rfl⟩ := Nat.exists_eq_succ_of_ne_zero (Nat.ne_of_gt hfuel)
    rfl
  | cons r post ih =>
    obtain ⟨fuel, rfl⟩ := Nat.exists_eq_succ_of_ne_zero (Nat.ne_zero_of_lt hfuel)
    have hself : m.Represents (Function.update L .binds (pre ++ r :: post)) lost := by
      rwa [← hL, Function.update_eq_self]
    obtain ⟨hnode, -, hne⟩ := hself.next
    obtain ⟨hfds, hcomfds⟩ := h.null_iff hL
    have hrest := ih (hL.trans (List.append_cons ..)) fuel (Nat.lt_of_succ_lt_succ hfuel)
    unfold Memory.dsuTerminationDetection
    simp only [List.map_cons, first, List.head?_cons, Laid.cell, Option.map_some, Option.getD_some, hne, if_false,
      hnode, Option.bind_some, hfds, hcomfds]
    rw [dsuTerminationDetection_cons, apply_ite some]
    exact if_congr Iff.rfl rfl (hrest _)

theorem Shows.dsuTerminationDetection (hm : m.Shows sockets binds lost) (w : World) :
    m.dsuTerminationDetection K m.top m.binds w = some (OpenDSU.dsuTerminationDetection K binds w) := by
  obtain ⟨L, hrep, rfl, rfl⟩ := hm
  have hbinds : m.binds = first ((L .binds).map Laid.cell) :=
    Chain.eq_first ((hrep.made .binds).chains _ List.mem_cons_self)
  rw [hbinds]
  exact detection_spec K hrep (List.nil_append _).symm m.top (hrep.length_lt .binds) w

/-! ### The entries of `ppoll` -/

/-- What is done to the record that a search has found, on the list. -/
theorem Represents.shows_update {m' : Memory} {found : DsuSocket → Bool} {f : DsuSocket → DsuSocket} {pre post : List Laid}
    {r r' : Laid} (h : m'.Represents (Function.update L .binds (pre ++ r' :: post)) lost)
    (hL : L .binds = pre ++ r :: post) (hpre : ∀ x ∈ pre, found x.sock = false) (hr : found r.sock = true)
    (hr' : r'.sock = f r.sock) :
    m'.Shows ((L .sockets).map Laid.sock) (dsuSocketsUpdate found f ((L .binds).map Laid.sock)) lost := by
  refine ⟨_, h, rfl, ?_⟩
  rw [Function.update_self, hL, update_found hpre hr f, List.map_append, List.map_cons, hr']

section Found
variable (h : m.Represents L lost) (found : DsuSocket → Bool) {pre post : List Laid} {r : Laid}
  (hL : L .binds = pre ++ r :: post) (hpre : ∀ x ∈ pre, found x.sock = false) (hr : found r.sock = true)
include h hL hpre hr

/-- A write to fields of the record that a search has found. -/
theorem Represents.writeFound (f : DsuSocket → DsuSocket)
    (hf : ∀ r fds comfds, f { r with fds := fds, comfds := comfds } = { f r with fds := fds, comfds := comfds }) :
    ∃ m', m.write r.addr (f (r.node.record [] [])) = some m' ∧
      m'.Shows ((L .sockets).map Laid.sock) (dsuSocketsUpdate found f ((L .binds).map Laid.sock)) lost := by
  obtain ⟨m', hm', hrep⟩ := write_spec h hL (f (r.node.record [] []))
  exact ⟨m', hm', hrep.shows_update hL hpre hr (hf (r.node.record [] []) _ _).symm⟩

theorem Represents.addFound (fd : Int) (flag : FdFlag) :
    ∃ m', m.dsuSocketAddFds pick r.addr fd flag = some m' ∧
      m'.Shows ((L .sockets).map Laid.sock)
        (dsuSocketsUpdate found (OpenDSU.dsuSocketAddFds · fd flag) ((L .binds).map Laid.sock)) lost := by
  obtain ⟨m', p, a, hm', hrep⟩ := addFds_spec pick h hL fd flag
  exact ⟨m', hm', hrep.shows_update hL hpre hr (sock_add r p a fd flag)⟩

theorem Represents.removeFound (fd : Int) (flag : FdFlag) :
    ∃ m', m.dsuSocketRemoveFds r.addr fd flag = some m' ∧
      m'.Shows ((L .sockets).map Laid.sock)
        (dsuSocketsUpdate found (OpenDSU.dsuSocketRemoveFds · fd flag) ((L .binds).map Laid.sock)) lost := by
  obtain ⟨m', p, hm', hrep⟩ := removeFds_spec h hL fd flag
  exact ⟨m', hm', hrep.shows_update hL hpre hr (sock_remove r p fd flag)⟩

end Found

/-- The record that a search by descriptor has found is freed, and its lists with it, but for their nodes. -/
theorem Represents.freeFound (h : m.Represents L lost) {pre post : List Laid} {r : Laid} {sockfd : Int}
    (hL : L v = pre ++ r :: post) (hpre : ∀ x ∈ pre, (x.sock.fd == sockfd) = false) (hr : (r.sock.fd == sockfd) = true) :
    ∃ m', m.dsuSocketsRemoveFd v sockfd = some m' ∧
      m'.Represents (Function.update L v (pre ++ post)) (r.nodes ++ lost) ∧
      OpenDSU.dsuSocketsRemoveFd ((L v).map Laid.sock) sockfd = (pre ++ post).map Laid.sock := by
  obtain ⟨m', hm', hrep⟩ := removeFd_spec h v sockfd
  -- The search compares a field of the node, which is the record's own.
  have hnode : ∀ x : Laid, (x.node.fd == sockfd) = (x.sock.fd == sockfd) := fun _ => rfl
  have hfind : (L v).find? (·.node.fd == sockfd) = some r :=
    List.find?_eq_some_iff_append.mpr ⟨hr, pre, post, hL, fun x hx => by simp [hnode, hpre x hx]⟩
  have herase : (L v).eraseP (·.node.fd == sockfd) = pre ++ post := by
    rw [hL, List.eraseP_append_right _ fun x hx => by simp [hnode, hpre x hx]]
    simp [hnode, hr]
  rw [hfind, herase] at hrep
  refine ⟨m', hm', hrep, ?_⟩
  rw [← herase]
  exact List.eraseP_map ..

theorem Shows.dsuPrePollEntry (hm : m.Shows sockets binds lost) (e : PollFd) (w : World) :
    ∃ m', Memory.dsuPrePollEntry K e (m, w) = some ((OpenDSU.dsuPrePollEntry K e (binds, w)).1, m',
        (OpenDSU.dsuPrePollEntry K e (binds, w)).2.2) ∧
      m'.Shows sockets (OpenDSU.dsuPrePollEntry K e (binds, w)).2.1 lost := by
  have hself := hm
  obtain ⟨L, hrep, rfl, rfl⟩ := hm
  unfold Memory.dsuPrePollEntry OpenDSU.dsuPrePollEntry
  rcases hrep.searchBinds e.fd with ⟨hp, hs⟩ | ⟨pre, r, post, hp, hs, hne, hL, hpre, hr⟩
  · simp only [hp, hs, Option.bind_some, if_true]
    exact ⟨m, rfl, hself⟩
  · obtain ⟨-, n, hnode⟩ := hrep.read hL
    simp only [hp, hs, Option.bind_some, hne, if_false, hnode]
    -- The test of an entry and its locks read the fields of the record, and neither of its lists.
    have hmonitoring : r.sock.monitoring = (r.node.record [] []).monitoring := rfl
    have htry : tryMonitor K r.sock false w = tryMonitor K (r.node.record [] []) false w := rfl
    rw [hmonitoring, htry]
    split
    · rcases tryMonitor K (r.node.record [] []) false w with ⟨access, transfer, w'⟩
      cases access with
      | refused => exact ⟨m, rfl, hself⟩
      | free => exact ⟨m, rfl, hself⟩
      | locked =>
        obtain ⟨m', hwrite, hshows⟩ := hrep.writeFound (·.fd == e.fd) hL hpre hr ({ · with locked := true }) fun _ _ _ => rfl
        exact ⟨m', by simp only [hwrite]; rfl, hshows⟩
    · exact ⟨m, rfl, hself⟩

theorem Shows.dsuPrePollEntries (hm : m.Shows sockets binds lost) (fds : List PollFd) (w : World) :
    ∃ m', Memory.dsuPrePollEntries K fds (m, w) = some ((walk (OpenDSU.dsuPrePollEntry K) fds (binds, w)).1, m',
        (walk (OpenDSU.dsuPrePollEntry K) fds (binds, w)).2.2) ∧
      m'.Shows sockets (walk (OpenDSU.dsuPrePollEntry K) fds (binds, w)).2.1 lost := by
  induction fds generalizing m binds w with
  | nil => exact ⟨m, rfl, hm⟩
  | cons e fds ih =>
    obtain ⟨m₁, hentry, hm₁⟩ := hm.dsuPrePollEntry K e w
    obtain ⟨m', hrest, hm'⟩ := ih hm₁ (OpenDSU.dsuPrePollEntry K e (binds, w)).2.2
    refine ⟨m', ?_, hm'⟩
    unfold Memory.dsuPrePollEntries
    rw [hentry, Option.bind_some, hrest]
    rfl

end Memory
end OpenDSU
