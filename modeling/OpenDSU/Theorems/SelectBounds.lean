import OpenDSU.Flags
import OpenDSU.Theorems.PollBounds
import OpenDSU.Theorems.SelectTransparent

/-! Which descriptors of the library `select` hands to `FD_SET`, `FD_CLR` and `FD_ISSET`, over the runs of a process.
An `fd_set` has `FD_SETSIZE` bits. -/

open Relation

namespace OpenDSU

/-! ### The macros -/

/-- The shadow that `dsu_pre_select` adds. -/
def preSelectGiven (K : Kernel) (r : DsuSocket) (s : SelectPass) : List Int :=
  if fdIsset r.fd s.readfds && r.monitoring then
    match (tryMonitor K r s.transfer s.world).1 with
    | .refused => []
    | .free | .locked => [r.shadowfd]
  else []

/-- What `dsu_sniff_conn` adds. -/
def sniffGiven (r : DsuSocket) (s : SelectPass) : List Int := if s.readfds.isNone then [] else r.watched

/-- What `dsu_handle_conn` looks for, and takes out: `comfd`, and the connections with the one that it has accepted. -/
def handleGiven (K : Kernel) (r : DsuSocket) (s : SelectPass) : List Int :=
  if s.readfds.isNone then []
  else r.comfd :: (if fdIsset r.comfd s.readfds then (acceptConn K r s.world).1 else r).comfds

/-- What `dsu_post_select` looks for, and takes out. -/
def postSelectGiven (r : DsuSocket) (s : SelectPass) : List Int := if s.readfds.isNone then [] else [r.shadowfd]

/-- The descriptors of a round up to its kernel wait. -/
def askGiven (K : Kernel) (p : Proc) (nfds : Int) (sets : FdSets) : List Int :=
  let pass := p.pass sets.read nfds
  let (binds, asked) := walk (dsuPreSelect K) p.binds pass
  walkNotes (dsuPreSelect K) (preSelectGiven K) p.binds pass ++ walkNotes dsuSniffConn sniffGiven binds asked

/-- And from the kernel wait on. -/
def serveGiven (K : Kernel) (p : Proc) (found : FdSets) : List Int :=
  let pass := p.pass found.read 0
  let (binds, handled) := walk (dsuHandleConn K) p.binds pass
  walkNotes (dsuHandleConn K) (handleGiven K) p.binds pass ++ walkNotes dsuPostSelect postSelectGiven binds handled

/-- The descriptors of a round past the termination detection. -/
def roundGiven (K : Kernel) (p : Proc) (nfds : Int) (sets : FdSets) (timeout : Option Nat) : List Int :=
  let wait := selectAsk K p nfds sets timeout
  let (found, w) := wait.proc.world.select K wait.maxFds wait.asked wait.timeout
  askGiven K p nfds sets ++
    match found with
    | none => []
    | some found => serveGiven K { wait.proc with world := w } found

/-- The descriptors of a `select` with at most `rounds` restarts. -/
def selectGiven (K : Kernel) (nfds : Int) (sets : FdSets) (timeout : Option Nat) : Nat → Proc → List Int
  | 0, _ => []
  | rounds + 1, p =>
    let start := dsuInitializeEvent K p
    (if start.exited then [] else roundGiven K start nfds sets timeout) ++
      match selectRound K p nfds sets timeout with
      | (p, .again) => selectGiven K nfds sets timeout rounds p
      | _ => []

/-- The call keeps to the elements of `_fds` and to the bits of its sets. -/
def Call.InBounds (K : Kernel) (p : Proc) : Call → Prop
  | .select nfds sets timeout rounds => ∀ d ∈ selectGiven K nfds sets timeout rounds p, InSetsize d
  | .ppoll fds _ =>
    (dsuInitializeEvent K p).exited = false → ∀ i, PollTouches K (dsuInitializeEvent K p) fds i → InSetsize i
  | .socket | .bind .. | .accept _ | .close _ | .epollCtl .. | .epollWait .. => True

/-! ### When they are in bounds -/

/-- The value of `*recvfd` after a message. -/
def Msg.recvfd (recvfd : Int) : Msg → Int
  | .lost => recvfd
  | .malformed | .bare _ => -1
  | .full fd _ => fd

/-- The numbers for a record are those of bits of an `fd_set`: of the socket and of a new `comfd`, or what the two
messages of an exchange leave in their place. -/
def BindFits (K : Kernel) (p : Proc) (sockfd : Int) (port : Nat) : Prop :=
  let (comfd, w) := p.world.allot K .com
  if K.bindName w port = .inUse ∧ (w.tick.isOpen comfd && K.connect w.tick comfd) = true then
    let (first, w) := w.tick.tick.recvmsg K comfd .shadow
    InSetsize (first.recvfd sockfd) ∧ InSetsize ((w.recvmsg K comfd .com).1.recvfd 0)
  else InSetsize sockfd ∧ InSetsize comfd

/-- What the handlers do from a kernel wait on, in whatever order they come to the records. -/
abbrev ServesOn (K : Kernel) := ReflTransGen (Within (HandlerStep K))

/-- The connections that the kernel hands over to the handlers from here on have numbers below `FD_SETSIZE`. -/
def Kernel.AcceptsBelow (K : Kernel) (wait : List DsuSocket × World) : Prop :=
  ∀ c, ServesOn K wait c → ∀ r ∈ c.1, ∀ n, K.accept c.2 r.comfd = true → K.number c.2 = some n → n < nfdsMax

/-- And so it is from every kernel wait of the call. -/
def Call.AcceptsBelow (K : Kernel) (p : Proc) (call : Call) : Prop :=
  ∀ q ∈ call.entries K p, K.AcceptsBelow (q.binds, q.world.tick)

def Call.Fits (K : Kernel) (p : Proc) : Call → Prop
  | .bind sockfd port => (dsuSocketsSearchFd p.sockets sockfd).isSome = true → BindFits K p sockfd port
  | .ppoll fds timeout =>
    ((dsuInitializeEvent K p).exited = false → FitsArray K (dsuInitializeEvent K p) fds) ∧
      (Call.ppoll fds timeout).AcceptsBelow K p
  | .select nfds sets timeout rounds => (Call.select nfds sets timeout rounds).AcceptsBelow K p
  | .epollWait epfd events maxevents timeout => (Call.epollWait epfd events maxevents timeout).AcceptsBelow K p
  | .socket | .accept _ | .close _ | .epollCtl .. => True

/-- The numbers of a record are those of bits of an `fd_set`. -/
structure DsuSocket.InSet (r : DsuSocket) : Prop where
  comfd : InSetsize r.comfd
  shadowfd : InSetsize r.shadowfd
  comfds : ∀ c ∈ r.comfds, InSetsize c

def DsuSocket.bits (r : DsuSocket) : Int × Int × List Int := (r.comfd, r.shadowfd, r.comfds)

/-- The invariant of the handlers. -/
structure Serving (K : Kernel) (c : List DsuSocket × World) : Prop where
  inSet : ∀ r ∈ c.1, r.InSet
  accepts : K.AcceptsBelow c

/-- The invariant. -/
structure Proc.InSet (p : Proc) : Prop where
  sockets : ∀ s ∈ p.sockets, s.shadowfd = s.fd ∧ s.comfds = []
  binds : ∀ r ∈ p.binds, r.InSet

variable {K : Kernel} {p q : Proc} {r r' : DsuSocket} {w : World} {sets : FdSets} {nfds : Int} {timeout : Option Nat}
  {l : List DsuSocket}

/-! ### One record -/

theorem DsuSocket.InSet.alike (h : r.InSet) (hcomfd : r'.comfd = r.comfd) (hshadowfd : r'.shadowfd = r.shadowfd)
    (hcomfds : ∀ c ∈ r'.comfds, c ∈ r.comfds) : r'.InSet where
  comfd := hcomfd ▸ h.comfd
  shadowfd := hshadowfd ▸ h.shadowfd
  comfds c hc := h.comfds c (hcomfds c hc)

/-- What is accepted has the number that the kernel has for it. -/
theorem accept_number {fd : Int} {kind : Kind} (h : (w.accept K fd kind).1 ≠ -1) :
    K.accept w fd = true ∧ K.number w = some (w.accept K fd kind).1 ∧ 0 ≤ (w.accept K fd kind).1 := by
  unfold World.accept at h ⊢
  split at h
  · rename_i haccept
    rw [if_pos haccept]
    unfold World.allot at h ⊢
    cases hn : K.number w with
    | none =>
      rw [hn] at h
      exact absurd rfl h
    | some n =>
      rw [hn] at h
      simp only at h ⊢
      split at h
      · rename_i hfree
        rw [if_pos hfree]
        simp only [Bool.and_eq_true, decide_eq_true_eq] at haccept hfree
        exact ⟨haccept.2, rfl, hfree.1⟩
      · exact absurd rfl h
  · exact absurd rfl h

theorem acceptConn_inSet (h : r.InSet)
    (hK : ∀ n, K.accept w r.comfd = true → K.number w = some n → n < nfdsMax) : (acceptConn K r w).1.InSet := by
  change (if (w.accept K r.comfd .internal).1 ≠ -1 then _ else r).InSet
  split
  · rename_i hacc
    obtain ⟨haccept, hnumber, hnonneg⟩ := accept_number hacc
    refine ⟨h.comfd, h.shadowfd, fun c hc => ?_⟩
    rcases List.mem_append.mp hc with hc | hc
    · exact h.comfds c hc
    · rw [List.mem_singleton.mp hc]
      exact ⟨hnonneg, hK _ haccept hnumber⟩
  · exact h

theorem answerConn_inSet (h : r.InSet) (w : World) (c : Int) : (answerConn K c r w).2.1.InSet := by
  rcases answerConn_cases K r w c with ⟨-, -, hr, -⟩ | ⟨-, -, -, hr | hr⟩ <;> rw [hr]
  · exact h.alike rfl rfl fun _ => List.mem_of_mem_erase
  · exact h
  · exact h.alike rfl rfl fun _ hc => hc

/-! ### The handlers -/

namespace Serving
variable {c c' : List DsuSocket × World}

theorem step (hs : Within (HandlerStep K) c c') (h : Serving K c) : Serving K c' := by
  refine ⟨?_, fun d hd => h.accepts d (.head hs hd)⟩
  have hhere := h.accepts c .refl
  cases hs with
  | @step pre post r r' w w' hs =>
    obtain ⟨hpre, hpost⟩ := List.forall_mem_append.mp h.inSet
    obtain ⟨hr, hpost⟩ := List.forall_mem_cons.mp hpost
    refine List.forall_mem_append.mpr ⟨hpre, List.forall_mem_cons.mpr ⟨?_, hpost⟩⟩
    have hstep : ∀ c', HandlerStep K (r, w) c' → c'.1.InSet := by
      rintro _ (_ | _ | _)
      · exact acceptConn_inSet hr (hhere r (by simp))
      · exact answerConn_inSet hr _ _
      · exact hr
    exact hstep _ hs

/-- A pass of handlers over the records. -/
theorem handled {σ : Type} {f : DsuSocket → σ → DsuSocket × σ} (view : σ → World)
    (hf : ∀ r s, Handles K (r, view s) ((f r s).1, view (f r s).2)) {s : σ} (h : Serving K (l, view s)) :
    ∀ r ∈ (walk f l s).1, r.InSet :=
  (ReflTransGen.keeps (I := Serving K) (fun _ _ hs => step hs) (walk_within hf [] l s) h).inSet

end Serving

/-! ### The passes of an event call -/

theorem dsuMonitorFd_inSet (pgid : Int) (h : r.InSet) (w : World) : (dsuMonitorFd K pgid r w).1.InSet := by
  unfold dsuMonitorFd
  simp only
  split
  · rcases monitorSection_cases pgid ((w.waitStatus K r.port).2.status r.port) r with
      ⟨-, he⟩ | ⟨-, -, he⟩ | ⟨-, -, he⟩ <;> rw [he]
    · exact h.alike rfl rfl fun _ hc => hc
    · exact h
    · exact h
  · exact h

theorem unlockFd_inSet (h : r.InSet) (w : World) : (unlockFd r w).1.InSet := by
  unfold unlockFd
  split
  · exact h.alike rfl rfl fun _ hc => hc
  · exact h

/-- The translation before a wait leaves the numbers as they are. -/
theorem asks_bits {c c' : List DsuSocket × World} (h : ReflTransGen (Within Ask) c c') :
    c'.1.map DsuSocket.bits = c.1.map DsuSocket.bits :=
  asks_map (fun _ => rfl) h

theorem exists_of_bits {l l' : List DsuSocket} (h : l'.map DsuSocket.bits = l.map DsuSocket.bits) (hr : r ∈ l) :
    ∃ r' ∈ l', r'.comfd = r.comfd ∧ r'.shadowfd = r.shadowfd ∧ r'.comfds = r.comfds := by
  have hmem : r.bits ∈ l'.map DsuSocket.bits := h ▸ List.mem_map_of_mem hr
  obtain ⟨r', hr', he⟩ := List.mem_map.mp hmem
  simp only [DsuSocket.bits, Prod.mk.injEq] at he
  exact ⟨r', hr', he⟩

theorem inSet_of_asks {c c' : List DsuSocket × World} (h : ReflTransGen (Within Ask) c c')
    (hc : ∀ r ∈ c.1, r.InSet) : ∀ r ∈ c'.1, r.InSet := by
  intro r' hr'
  obtain ⟨r, hr, hcomfd, hshadowfd, hcomfds⟩ := exists_of_bits (asks_bits h).symm hr'
  exact (hc r hr).alike hcomfd.symm hshadowfd.symm fun c hc => hcomfds ▸ hc

theorem initializeEvent_inSet (h : ∀ r ∈ p.binds, r.InSet) : ∀ r ∈ (dsuInitializeEvent K p).binds, r.InSet := by
  have hlive : ∀ r ∈ (dsuGoLive K p).binds, r.InSet := by
    unfold dsuGoLive
    split
    · exact h
    · exact forall_mem_walk_of (fun r _ hr => hr.alike rfl rfl fun _ hc => hc) _ _ h
  unfold dsuInitializeEvent
  generalize dsuGoLive K p = p at hlive
  have hmonitor := forall_mem_walk_of (fun r w hr => dsuMonitorFd_inSet (K := K) p.pgid hr w) _ p.world hlive
  simp only
  split
  · exact hmonitor
  · exact hmonitor

/-! ### `select` -/

theorem dsuPostSelect_inSet (h : r.InSet) (s : SelectPass) : (dsuPostSelect r s).1.InSet := by
  have hunlock := unlockFd_inSet h s.world
  unfold dsuPostSelect
  simp only
  split <;> exact hunlock

/-- The kernel wait of a round, with the time that it takes. -/
def selectEntry (K : Kernel) (p : Proc) (nfds : Int) (sets : FdSets) (timeout : Option Nat) : List DsuSocket × World :=
  ((selectAsk K p nfds sets timeout).proc.binds, (selectAsk K p nfds sets timeout).proc.world.tick)

theorem selectAsk_serving (h : ∀ r ∈ p.binds, r.InSet) (hK : K.AcceptsBelow (selectEntry K p nfds sets timeout)) :
    Serving K (selectEntry K p nfds sets timeout) := by
  have hask : ∀ r ∈ (selectAsk K p nfds sets timeout).proc.binds, r.InSet :=
    inSet_of_asks (selectAsk_asks K p nfds sets timeout) h
  exact ⟨hask, hK⟩

theorem selectRest_inSet (h : ∀ r ∈ p.binds, r.InSet) (hK : K.AcceptsBelow (selectEntry K p nfds sets timeout)) :
    ∀ r ∈ (selectRest K p nfds sets timeout).1.binds, r.InSet := by
  have hserving := selectAsk_serving h hK
  unfold selectRest
  simp only
  split
  · exact hserving.inSet
  · exact forall_mem_walk_of (fun r s hr => dsuPostSelect_inSet hr s) _ _
      (Serving.handled SelectPass.world (dsuHandleConn_handles K) hserving)

theorem selectRound_inSet (h : ∀ r ∈ p.binds, r.InSet) (hK : (dsuInitializeEvent K p).exited = false →
    K.AcceptsBelow (selectEntry K (dsuInitializeEvent K p) nfds sets timeout)) :
    ∀ r ∈ (selectRound K p nfds sets timeout).1.binds, r.InSet := by
  have hstart := initializeEvent_inSet (K := K) h
  unfold selectRound
  simp only
  split
  · exact hstart
  · rename_i hexit
    exact selectRest_inSet hstart (hK (by simpa using hexit))

/-- The kernel waits of a `select` are the one of its first round and those of the rounds after it. -/
theorem selectWaits_split {P : Proc → Prop} {rounds : Nat}
    (h : ∀ q ∈ selectWaits K nfds sets timeout (rounds + 1) p, P q) :
    ((dsuInitializeEvent K p).exited = false → P (selectAsk K (dsuInitializeEvent K p) nfds sets timeout).proc) ∧
      ∀ q, selectRound K p nfds sets timeout = (q, .again) → ∀ u ∈ selectWaits K nfds sets timeout rounds q, P u := by
  unfold selectWaits at h
  simp only at h
  constructor
  · intro hexit
    rw [if_neg (by simp [hexit])] at h
    exact h _ List.mem_cons_self
  · intro q hq u hu
    have hexit : ¬(dsuInitializeEvent K p).exited = true := by
      intro hexit
      unfold selectRound at hq
      simp only [if_pos hexit, Prod.mk.injEq] at hq
      cases hq.2
    rw [if_neg hexit, hq] at h
    exact h u (List.mem_cons_of_mem _ hu)

theorem select_inSet {rounds : Nat} {done : Proc × Round} (h : ∀ r ∈ p.binds, r.InSet)
    (hK : (Call.select nfds sets timeout rounds).AcceptsBelow K p)
    (hs : select K nfds sets timeout rounds p = some done) : ∀ r ∈ done.1.binds, r.InSet := by
  induction rounds generalizing p with
  | zero => cases hs
  | succ rounds ih =>
    obtain ⟨hfirst, hrest⟩ := selectWaits_split hK
    have hround := selectRound_inSet h hfirst
    unfold select at hs
    split at hs
    · rename_i q hq
      rw [hq] at hround
      exact ih hround (hrest q hq) hs
    · cases hs
      exact hround

/-! ### `ppoll` and `epoll_wait` -/

theorem ppoll_inSet (fds : List PollFd) (timeout : Option Nat) (h : ∀ r ∈ p.binds, r.InSet)
    (hK : (Call.ppoll fds timeout).AcceptsBelow K p) : ∀ r ∈ (ppoll K fds timeout p).1.binds, r.InSet := by
  have hstart := initializeEvent_inSet (K := K) h
  unfold Call.AcceptsBelow Call.entries at hK
  unfold ppoll
  generalize dsuInitializeEvent K p = start at hstart hK
  simp only at hK ⊢
  split
  · exact hstart
  · rename_i hexit
    rw [if_neg hexit, List.forall_mem_singleton] at hK
    have hask : ∀ r ∈ (pollAsk K start fds).proc.binds, r.InSet := inSet_of_asks (pollAsk_asks K start fds) hstart
    have hserve : ∀ fds', ∀ r ∈ (pollServe K { (pollAsk K start fds).proc with
        world := (pollAsk K start fds).proc.world.tick } fds' fds.length (pollAsk K start fds).nfds).binds, r.InSet :=
      fun fds' => forall_mem_walk_of (fun r w hr => unlockFd_inSet hr w) _ _
        (Serving.handled PollPass.world (dsuHandleConnPoll_handles K · fds' fds.length (pollAsk K start fds).nfds)
          ⟨hask, hK⟩)
    unfold ppollRest
    simp only
    split
    · exact hask
    · split
      · exact hask
      · split
        · exact hserve _
        · exact hserve _

theorem dsuEpollShadowfd_inSet (epfd : Int) (h : r.InSet) (w : World) : (dsuEpollShadowfd K epfd r w).1.InSet := by
  unfold dsuEpollShadowfd
  simp only
  split
  · split
    · exact h
    · exact h
    · exact h.alike rfl rfl fun _ hc => hc
  · exact h

theorem dsuPostEpoll_inSet (epfd : Int) (es : List Event) (events : Nat → Event) (h : Serving K (p.binds, p.world)) :
    ∀ r ∈ (dsuPostEpoll K epfd p es events).1.binds, r.InSet := by
  have horiginal : ∀ r w, (dsuEpollOriginalfd K epfd r w).1 = r := by
    intro r w
    unfold dsuEpollOriginalfd
    split <;> rfl
  exact forall_mem_walk_of (fun r w hr => (horiginal r w).symm ▸ hr) _ _
    (forall_mem_walk_of (fun r w hr => unlockFd_inSet hr w) _ _
      (Serving.handled (σ := List Event × World) Prod.snd (dsuHandleConnEpoll_handles K · epfd) h))

theorem epollWait_inSet (epfd : Int) (events : Nat → Event) (maxevents : Nat) (timeout : Option Nat)
    (h : ∀ r ∈ p.binds, r.InSet) (hK : (Call.epollWait epfd events maxevents timeout).AcceptsBelow K p) :
    ∀ r ∈ (epollWait K epfd events maxevents timeout p).1.binds, r.InSet := by
  have hstart := initializeEvent_inSet (K := K) h
  unfold Call.AcceptsBelow Call.entries at hK
  unfold epollWait
  generalize dsuInitializeEvent K p = start at hstart hK
  simp only at hK ⊢
  split
  · exact hstart
  · rename_i hexit
    rw [if_neg hexit, List.forall_mem_singleton] at hK
    have hask : ∀ r ∈ (dsuPreEpoll K epfd start.binds start.world).1, r.InSet :=
      forall_mem_walk_of (f := dsuEpollInternalConn K epfd) (fun _ _ hr => hr) _ _
        (forall_mem_walk_of (fun r w hr => dsuEpollShadowfd_inSet epfd hr w) _ _ hstart)
    unfold epollRest
    simp only
    split
    · exact dsuPostEpoll_inSet epfd _ events ⟨hask, hK⟩
    · exact dsuPostEpoll_inSet epfd [] events ⟨hask, hK⟩

/-! ### What a call hands to the macros -/

theorem DsuSocket.InSet.watched (h : r.InSet) : ∀ d ∈ r.watched, InSetsize d := by
  intro d hd
  rcases List.mem_append.mp hd with hd | hd
  · split at hd
    · exact List.mem_singleton.mp hd ▸ h.comfd
    · cases hd
  · exact h.comfds d hd

theorem preSelectGiven_inSet (h : r.InSet) (s : SelectPass) : ∀ d ∈ preSelectGiven K r s, InSetsize d := by
  unfold preSelectGiven
  split
  · split
    · simp
    · simpa using h.shadowfd
    · simpa using h.shadowfd
  · simp

theorem sniffGiven_inSet (h : r.InSet) (s : SelectPass) : ∀ d ∈ sniffGiven r s, InSetsize d := by
  unfold sniffGiven
  split
  · simp
  · exact h.watched

theorem handleGiven_inSet {pre post : List DsuSocket} {s : SelectPass} (h : Serving K (pre ++ r :: post, s.world)) :
    ∀ d ∈ handleGiven K r s, InSetsize d := by
  have hr : r.InSet := h.inSet r (by simp)
  unfold handleGiven
  split
  · simp
  · refine List.forall_mem_cons.mpr ⟨hr.comfd, ?_⟩
    split
    · exact (acceptConn_inSet hr (h.accepts _ .refl r (by simp))).comfds
    · exact hr.comfds

theorem postSelectGiven_inSet (h : r.InSet) (s : SelectPass) : ∀ d ∈ postSelectGiven r s, InSetsize d := by
  unfold postSelectGiven
  split
  · simp
  · simpa using h.shadowfd

theorem roundGiven_inSet (h : ∀ r ∈ p.binds, r.InSet) (hK : K.AcceptsBelow (selectEntry K p nfds sets timeout)) :
    ∀ d ∈ roundGiven K p nfds sets timeout, InSetsize d := by
  have hpre : ∀ r ∈ (walk (dsuPreSelect K) p.binds (p.pass sets.read nfds)).1, r.InSet :=
    inSet_of_asks (walk_within (f := dsuPreSelect K) (dsuPreSelect_asks K) [] p.binds (p.pass sets.read nfds)) h
  have hserving := selectAsk_serving h hK
  unfold roundGiven
  refine List.forall_mem_append.mpr ⟨List.forall_mem_append.mpr ⟨?_, ?_⟩, ?_⟩
  · exact forall_mem_walkNotes (fun r s (hr : r.InSet) => preSelectGiven_inSet hr s) _ _ h
  · exact forall_mem_walkNotes (fun r s (hr : r.InSet) => sniffGiven_inSet hr s) _ _ hpre
  · split
    · simp
    · refine List.forall_mem_append.mpr ⟨?_, ?_⟩
      · exact forall_mem_walkNotes_within SelectPass.world (fun _ _ => Serving.step)
          (dsuHandleConn_handles K) (fun _ _ _ _ => handleGiven_inSet) [] _ _ hserving
      · exact forall_mem_walkNotes (fun r s (hr : r.InSet) => postSelectGiven_inSet hr s) _ _
          (Serving.handled SelectPass.world (dsuHandleConn_handles K) hserving)

theorem selectGiven_inSet (rounds : Nat) (h : ∀ r ∈ p.binds, r.InSet)
    (hK : (Call.select nfds sets timeout rounds).AcceptsBelow K p) :
    ∀ d ∈ selectGiven K nfds sets timeout rounds p, InSetsize d := by
  induction rounds generalizing p with
  | zero => simp [selectGiven]
  | succ rounds ih =>
    obtain ⟨hfirst, hrest⟩ := selectWaits_split hK
    refine List.forall_mem_append.mpr ⟨?_, ?_⟩
    · split
      · simp
      · rename_i hexit
        exact roundGiven_inSet (initializeEvent_inSet h) (hfirst (by simpa using hexit))
    · split
      · rename_i q hround
        have hq := selectRound_inSet h hfirst
        rw [hround] at hq
        exact ih hq (hrest q hround)
      · simp

/-! ### Runs -/

theorem dsuReadFd_recvfd (w : World) (fd recvfd port : Int) (kind : Kind) :
    (dsuReadFd K w fd recvfd port kind).1 = (w.recvmsg K fd kind).1.recvfd recvfd := by
  unfold dsuReadFd
  simp only
  split <;> rename_i hm <;> rw [hm] <;> rfl

/-- A `bind` moves one record to the bound list, with the two numbers it gave the record inside a set. -/
theorem Bound.inSet {s : DsuSocket} (hb : Bound p s w q) (h : p.InSet) (hnone : s.comfds = [])
    (hshadowfd : InSetsize s.shadowfd) (hcomfd : InSetsize s.comfd) : q.InSet := by
  obtain ⟨s', hbinds, -, hshadowfd', -, hcomfd', -, hcomfds', -⟩ := hb.binds
  refine ⟨fun x hx => h.sockets x ?_, fun r hr => ?_⟩
  · rw [hb.sockets] at hx
    exact List.mem_of_mem_eraseP hx
  · rw [hbinds] at hr
    rcases List.mem_append.mp hr with hr | hr
    · exact h.binds r hr
    · rw [List.mem_singleton.mp hr]
      exact ⟨hcomfd' ▸ hcomfd, hshadowfd' ▸ hshadowfd, by simp [hcomfds', hnone]⟩

theorem bind_inSet {sockfd : Int} {port : Nat} (h : p.InSet) (hfits : Call.Fits K p (.bind sockfd port)) :
    (bind K p sockfd port).2.InSet := by
  rcases bind_cases K p sockfd port with ⟨-, hq⟩ | ⟨s, hs, hq⟩
  · rw [hq]
    exact h
  · obtain ⟨hmem, hfd⟩ := mem_of_search_fd hs
    obtain ⟨hshadowfd, hcomfds⟩ := h.sockets s hmem
    have hbind : BindFits K p sockfd port := hfits (by rw [hs]; rfl)
    unfold BindFits at hbind
    simp only at hbind
    rcases hq with ⟨hfree, hb⟩ | ⟨huse, hb⟩
    · have hno : ¬(K.bindName (p.world.allot K .com).2 port = .inUse ∧
          ((p.world.allot K .com).2.tick.isOpen (p.world.allot K .com).1 &&
            K.connect (p.world.allot K .com).2.tick (p.world.allot K .com).1) = true) := fun ⟨hname, hmade⟩ =>
        hfree ((dsuMonitorInit_inUse K).mpr ⟨(Bool.and_eq_true_iff.mp hmade).1, hname⟩)
      rw [if_neg hno] at hbind
      exact hb.inSet h hcomfds (by simpa [hshadowfd, hfd] using hbind.1) hbind.2
    · have hname := ((dsuMonitorInit_inUse K).mp huse).2
      rw [dsuInheritFd_eq] at hb
      simp only at hb hname
      split at hb
      · rename_i hmade
        rw [if_pos ⟨hname, hmade⟩] at hbind
        refine hb.inSet h hcomfds ?_ ?_
        · simpa [dsuReadFd_recvfd, hshadowfd, hfd] using hbind.1
        · simpa [dsuReadFd_recvfd, dsuReadFd_world] using hbind.2
      · rename_i hmade
        rw [if_neg fun hboth => hmade hboth.2] at hbind
        exact hb.inSet h hcomfds (by simpa [hshadowfd, hfd] using hbind.1) hbind.2

theorem forall_mem_dsuSocketsUpdate {P : DsuSocket → Prop} {test : DsuSocket → Bool} {f : DsuSocket → DsuSocket}
    (hf : ∀ r, P r → P (f r)) {l : List DsuSocket} (h : ∀ r ∈ l, P r) : ∀ r ∈ dsuSocketsUpdate test f l, P r := by
  induction l with
  | nil => simp [dsuSocketsUpdate]
  | cons r l ih =>
    obtain ⟨hr, hl⟩ := List.forall_mem_cons.mp h
    unfold dsuSocketsUpdate
    split
    · exact List.forall_mem_cons.mpr ⟨hf r hr, hl⟩
    · exact List.forall_mem_cons.mpr ⟨hr, ih hl⟩

theorem socket_inSet (h : p.InSet) : (socket K p).2.InSet := by
  unfold socket
  simp only
  split
  · refine ⟨List.forall_mem_append.mpr ⟨h.sockets, ?_⟩, h.binds⟩
    simp [dsuSocketListInit]
  · exact ⟨h.sockets, h.binds⟩

theorem accept_inSet (sockfd : Int) (h : p.InSet) : (accept K p sockfd).2.InSet := by
  unfold accept
  simp only
  generalize p.world.accept K (dsuShadowfd p.binds sockfd) _ = session
  split
  · exact ⟨h.sockets, h.binds⟩
  · exact ⟨h.sockets, forall_mem_dsuSocketsUpdate (fun r hr => hr.alike rfl rfl fun _ hc => hc) h.binds⟩

theorem close_inSet (sockfd : Int) (h : p.InSet) : (close K p sockfd).InSet := by
  unfold close
  split
  · exact ⟨h.sockets, h.binds⟩
  split
  · exact ⟨fun s hs => h.sockets s (List.mem_of_mem_eraseP hs), h.binds⟩
  split
  · exact ⟨h.sockets, fun r hr => h.binds r (List.mem_of_mem_eraseP hr)⟩
  split
  · exact ⟨h.sockets, forall_mem_dsuSocketsUpdate (fun r hr => hr.alike rfl rfl fun _ hc => hc) h.binds⟩
  split
  · exact ⟨h.sockets, forall_mem_dsuSocketsUpdate (fun r hr => hr.alike rfl rfl fun _ => List.mem_of_mem_erase) h.binds⟩
  split
  · exact ⟨h.sockets, forall_mem_dsuSocketsUpdate (fun r hr => hr.alike rfl rfl fun _ hc => hc) h.binds⟩
  · exact ⟨h.sockets, h.binds⟩

theorem epollCtl_inSet (epfd : Int) (op : EpollOp) (fd : Int) (event : EpollEvent) (h : p.InSet) :
    (epollCtl K p epfd op fd event).2.InSet := by
  unfold epollCtl
  split
  · exact ⟨h.sockets, h.binds⟩
  · exact ⟨h.sockets, forall_mem_dsuSocketsUpdate (fun r hr => hr.alike rfl rfl fun _ hc => hc) h.binds⟩

theorem event_inSet {call : Call} (h : ∀ r ∈ p.binds, r.InSet) (hfits : call.Fits K p) (hcall : call.waits = true)
    (hs : p.step K call = some q) : ∀ r ∈ q.binds, r.InSet := by
  cases call with
  | select =>
    obtain ⟨done, hdone, rfl⟩ := Proc.step_select hs
    exact select_inSet h hfits hdone
  | ppoll fds timeout => exact Proc.step_ppoll hs ▸ ppoll_inSet fds timeout h hfits.2
  | epollWait epfd events maxevents timeout =>
    exact Proc.step_epollWait hs ▸ epollWait_inSet epfd events maxevents timeout h hfits
  | socket | bind | accept | close | epollCtl => cases hcall

/-- A call that fits keeps the numbers of the records below `FD_SETSIZE`. -/
theorem step_inSet {call : Call} (h : p.InSet) (hfits : call.Fits K p) (hs : p.step K call = some q) : q.InSet := by
  cases step_takes hs with
  | socket => exact socket_inSet h
  | bind sockfd port => exact bind_inSet h hfits
  | accept sockfd => exact accept_inSet sockfd h
  | close sockfd => exact close_inSet sockfd h
  | epollCtl epfd op fd event => exact epollCtl_inSet epfd op fd event h
  | event hcall he => exact ⟨he.sockets ▸ h.sockets, event_inSet h.binds hfits hcall hs⟩

theorem inBounds_of_inSet {call : Call} (h : p.InSet) (hfits : call.Fits K p) : call.InBounds K p := by
  cases call with
  | select nfds sets timeout rounds => exact selectGiven_inSet rounds h.binds hfits
  | ppoll fds timeout => exact fun hexit => pollTouches_iff.mpr (hfits.1 hexit)
  | socket | bind | accept | close | epollCtl | epollWait => trivial

theorem comfds_mem_acceptConn (r : DsuSocket) (w : World) {c : Int} (hc : c ∈ r.comfds) :
    c ∈ (acceptConn K r w).1.comfds := by
  rcases acceptConn_cases K r w with ⟨hr, -⟩ | ⟨d, hr, -⟩ <;> rw [hr]
  · exact hc
  · exact List.mem_append_left _ hc

/-- A handled record has handed its `comfd` and its connections to the macros, and then its shadow. -/
theorem inSet_of_serveGiven {found : FdSets} (hread : found.read.isSome = true)
    (h : ∀ d ∈ serveGiven K p found, InSetsize d) : ∀ r ∈ p.binds, r.InSet := by
  intro r hr
  obtain ⟨hhandle, hpost⟩ := List.forall_mem_append.mp h
  have hkeep : ∀ r s, s.readfds.isSome = true → (dsuHandleConn K r s).2.readfds.isSome = true := fun r s hs =>
    (dsuHandleConn_isSome r s).trans hs
  obtain ⟨s, hs, hgiven⟩ : ∃ s : SelectPass, s.readfds.isSome = true ∧
      ∀ d ∈ handleGiven K r s, d ∈ walkNotes (dsuHandleConn K) (handleGiven K) p.binds (p.pass found.read 0) :=
    walkNotes_of_mem hkeep hread hr
  have hnull : s.readfds.isNone = false := by simpa using hs
  have hmem : ∀ d ∈ r.comfd :: r.comfds, d ∈ handleGiven K r s := by
    unfold handleGiven
    rw [hnull, if_neg Bool.false_ne_true]
    refine List.forall_mem_cons.mpr ⟨List.mem_cons_self, fun c hc => List.mem_cons_of_mem _ ?_⟩
    split
    · exact comfds_mem_acceptConn r s.world hc
    · exact hc
  obtain ⟨hcomfd, hcomfds⟩ := List.forall_mem_cons.mp fun d hd => hhandle d (hgiven d (hmem d hd))
  refine ⟨hcomfd, ?_, hcomfds⟩
  -- The shadow is handed over for the record that the handlers have left.
  have hnames := (Changes.of_walk SelectPass.world (dsuHandleConn_effects K) p.binds (p.pass found.read 0)).names
  have hname := List.mem_map_of_mem (f := DsuSocket.names) hr
  rw [← hnames] at hname
  obtain ⟨r', hr', he⟩ := List.mem_map.mp hname
  have hhandled : (walk (dsuHandleConn K) p.binds (p.pass found.read 0)).2.readfds.isSome = true :=
    (walk_state (g := fun s : SelectPass => s.readfds.isSome) dsuHandleConn_isSome _ _).trans hread
  obtain ⟨s', hs', hgiven'⟩ : ∃ s : SelectPass, s.readfds.isSome = true ∧ ∀ d ∈ postSelectGiven r' s,
      d ∈ walkNotes dsuPostSelect postSelectGiven (walk (dsuHandleConn K) p.binds (p.pass found.read 0)).1
        (walk (dsuHandleConn K) p.binds (p.pass found.read 0)).2 :=
    walkNotes_of_mem (fun r s hs => (dsuPostSelect_isSome r s).trans hs) hhandled hr'
  have hshadowfd : r.shadowfd ∈ postSelectGiven r' s' := by
    have hnull : s'.readfds.isNone = false := by simpa using hs'
    unfold postSelectGiven
    rw [hnull, if_neg Bool.false_ne_true]
    exact List.mem_singleton.mpr (Prod.ext_iff.mp he).2.symm
  exact hpost _ (hgiven' _ hshadowfd)

/-- A round with a read set whose kernel wait succeeds hands every number of every record to the macros. -/
theorem inSet_of_roundGiven {found : FdSets} (hread : sets.read.isSome = true)
    (hfound : ((selectAsk K p nfds sets timeout).proc.world.select K (selectAsk K p nfds sets timeout).maxFds
      (selectAsk K p nfds sets timeout).asked (selectAsk K p nfds sets timeout).timeout).1 = some found)
    (h : ∀ d ∈ roundGiven K p nfds sets timeout, InSetsize d) : ∀ r ∈ p.binds, r.InSet := by
  have hasked : (selectAsk K p nfds sets timeout).asked.read.isSome = true := selectAsk_isSome.trans hread
  have hbits := asks_bits (selectAsk_asks K p nfds sets timeout)
  unfold roundGiven at h
  simp only at h
  generalize selectAsk K p nfds sets timeout = wait at h hfound hasked hbits
  rw [hfound] at h
  have hsome : found.read.isSome = true := by
    unfold World.select at hfound
    simp only at hfound
    split at hfound
    · obtain ⟨ready, -, rfl⟩ := Option.map_eq_some_iff.mp hfound
      simpa using hasked
    · cases hfound
  have hrecords := inSet_of_serveGiven hsome (List.forall_mem_append.mp h).2
  intro r hr
  obtain ⟨r', hr', hcomfd, hshadowfd, hcomfds⟩ := exists_of_bits hbits hr
  exact (hrecords r' hr').alike hcomfd.symm hshadowfd.symm fun c hc => hcomfds ▸ hc

theorem Proc.Started.inSet (h : p.Started) : p.InSet := ⟨by simp [h.sockets], by simp [h.binds]⟩

/-- `ppoll` keeps to the elements of `_fds` exactly if the caller's array fits. In every run whose calls all fit, every
call keeps to these elements and to the bits of its sets. It takes what `bind` needs to fit: a round of `select` with a
read set that comes past its kernel wait keeps to the bits only if all records have such numbers. -/
theorem calls_inBounds (K : Kernel) :
    (∀ p fds timeout, (Call.ppoll fds timeout).InBounds K p ↔
      ((dsuInitializeEvent K p).exited = false → FitsArray K (dsuInitializeEvent K p) fds)) ∧
    (∀ p calls, p.Started → (procMachine K).Attempts (fun p call => call.Fits K p) p calls →
      (procMachine K).Attempts (fun p call => call.InBounds K p) p calls) ∧
    ∀ p nfds sets timeout found, sets.read.isSome = true →
      ((selectAsk K p nfds sets timeout).proc.world.select K (selectAsk K p nfds sets timeout).maxFds
        (selectAsk K p nfds sets timeout).asked (selectAsk K p nfds sets timeout).timeout).1 = some found →
      (∀ d ∈ roundGiven K p nfds sets timeout, InSetsize d) → ∀ r ∈ p.binds, r.InSet := by
  refine ⟨fun p fds timeout => ?_, fun p calls h hfits => ?_, fun _ _ _ _ _ => inSet_of_roundGiven⟩
  · exact forall_congr' fun _ => pollTouches_iff
  · exact hfits.imp (I := Proc.InSet) (fun _ _ _ hp hok hs => step_inSet hp hok hs)
      (fun _ _ hp hok => inBounds_of_inSet hp hok) h.inSet

/-- A kernel that has numbers below `FD_SETSIZE` only. -/
def limitedKernel : Kernel := { soloKernel with number := fun w => if w.files < nfdsMax then some w.files else none }

theorem limitedKernel_acceptsBelow (wait : List DsuSocket × World) : limitedKernel.AcceptsBelow wait := by
  intro c _ r _ n _ hn
  obtain ⟨hlt, hn⟩ := Option.ite_none_right_eq_some.mp hn
  cases hn
  exact Int.ofNat_lt.mpr hlt

theorem calls_inBounds_limited :
    (procMachine limitedKernel).Attempts (fun p call => call.InBounds limitedKernel p) .loaded
      [.socket, .bind 3 8080, .select 4 ⟨some {3}, none, none⟩ (some 0) 1, .ppoll scattered (some 0)] :=
  (calls_inBounds limitedKernel).2.1 _ _ Proc.started_loaded <|
    .cons rfl trivial <| .cons rfl (fun _ => (by decide : InSetsize 3 ∧ InSetsize 4)) <|
    .cons rfl (fun _ _ => limitedKernel_acceptsBelow _) <|
    .cons rfl ⟨fun _ => ⟨by decide, fun h => absurd h (by decide)⟩, fun _ _ => limitedKernel_acceptsBelow _⟩ trivial

/-- A process that was started with descriptors 0 to 1022. -/
def Proc.crowded : Proc :=
  { Proc.loaded with
    world := { Proc.loaded.world with
      fdt := fun fd => if 0 ≤ fd ∧ fd ≤ 1022 then some { id := fd.toNat, kind := .user } else none
      files := 1023 } }

theorem Proc.started_crowded : Proc.crowded.Started where
  sockets := rfl
  binds := rfl
  orphans := rfl
  live := rfl
  correction := rfl
  exited := rfl
  user fd file h := by
    obtain ⟨hfd, h⟩ := Option.ite_none_right_eq_some.mp h
    cases h
    refine ⟨rfl, ?_⟩
    change fd.toNat < 1023
    omega
  regs := rfl
  held := rfl

/-- Its socket 1023 is in a read set, its `comfd` 1024 is not a bit of it. And `ppoll` copies whatever it is given, and
looks one element further where an entry is dropped. -/
theorem crowded_overruns : Proc.crowded.Started ∧
    ∃ p, (procMachine soloKernel).run .crowded [.socket, .bind 1023 8080] = some p ∧
    ¬(Call.select 1024 ⟨some {1023}, none, none⟩ (some 0) 1).InBounds soloKernel p ∧
    ¬(Call.ppoll (List.replicate 1025 ⟨0, pollin, 0⟩) none).InBounds soloKernel p ∧
    ¬(Call.ppoll (⟨-1, pollin, 0⟩ :: List.replicate 1023 ⟨0, pollin, 0⟩) none).InBounds soloKernel p := by
  refine ⟨Proc.started_crowded, _, rfl, fun h => absurd (h 1024 (by decide)) (by decide), fun h => ?_, fun h => ?_⟩
  · have hle := (pollTouches_iff.mp (h rfl)).1
    rw [List.length_replicate] at hle
    exact absurd hle (by decide)
  · have hkeeps := (pollTouches_iff.mp (h rfl)).2
    rw [List.length_cons, List.length_replicate] at hkeeps
    exact absurd (hkeeps rfl _ List.mem_cons_self) (by decide)

end OpenDSU
