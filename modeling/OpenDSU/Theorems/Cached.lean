import OpenDSU.Flags
import OpenDSU.Theorems.Tracking
import OpenDSU.Theorems.Untouched

/-! When the cached `blocking` of the records is what `O_NONBLOCK` of their shadow descriptors says.

`dsu_configure_process` runs once, in the first event call. A socket that is bound later is never configured, and the
wrappers of `fcntl` and `ioctl` do not look at the records. -/

open Relation

namespace OpenDSU

/-- The flags of the records are those of their open files, so that during a transfer a blocking socket is in a wait only
    with the descriptor lock. -/
structure Current (K : Kernel) (nonblock : Nat → Bool) (p : Proc) : Prop where
  cached : ∀ r ∈ p.binds, r.blocking = dsuIsBlocking nonblock p.world r.shadowfd
  guarded : ∀ r ∈ p.binds, dsuIsBlocking nonblock p.world r.shadowfd = true → ∀ handed w,
    0 < ((w.waitStatus K r.port).2.status r.port).transfer → (tryMonitor K r handed w).1 ≠ .free

namespace FlagCall

/-- At every entry of a kernel wait the flags are current. -/
def EntersCurrent (K : Kernel) (a : Flagged) : FlagCall → Prop
  | .event call => ∀ q ∈ call.entries (K.reading a.nonblock) a.proc, Current (K.reading a.nonblock) a.nonblock q
  | .socket | .bind .. | .setfl .. => True

end FlagCall

/-- The listening socket that `bind` comes to is non-blocking: the program's own, or the one that the first message
    brings. -/
def Flagged.bindsNonblocking (K : Kernel) (a : Flagged) (sockfd : Int) (port : Nat) : Bool :=
  let own := !dsuIsBlocking a.nonblock a.proc.world sockfd
  let (comfd, w) := a.proc.world.allot K .com
  if K.bindName w port = .inUse ∧ (w.tick.isOpen comfd && K.connect w.tick comfd) = true then
    match (w.tick.tick.recvmsg K comfd .shadow).1 with
    | .lost => own
    | .malformed | .bare _ => true
    | .full _ _ => a.nonblock w.files
  else own

/-- After the first event call, only non-blocking sockets are bound and the flag of a bound socket does not change. In an
    event call, 0 is not both the shadow descriptor of a record and watched by the library. -/
def FlagCall.Settled (K : Kernel) (a : Flagged) : FlagCall → Prop
  | .socket => True
  | .bind sockfd port => a.proc.live = true → (dsuSocketsSearchFd a.proc.sockets sockfd).isSome = true →
    a.bindsNonblocking K sockfd port = true
  | .setfl fd nonblock => a.proc.live = true → ∀ file ∈ a.target fd, ∀ r ∈ a.proc.binds,
    (a.proc.world.fdt r.shadowfd).map File.id = some file.id → a.nonblock file.id = nonblock
  | .event call => call.waits = true → ∀ r ∈ a.proc.binds, r.shadowfd = 0 → 0 ∉ watchedOf a.proc.binds

variable {K : Kernel} {p q : Proc} {nonblock : Nat → Bool} {binds : List DsuSocket} {w w' : World} {r : DsuSocket} {n : Int}

/-! ### Open files that stay -/

/-- What is open and not watched stays what it is. -/
theorem Changes.fdt {c c' : List DsuSocket × World} (h : Changes c c') (hopen : c.2.isOpen n = true)
    (hn : n ∉ watchedOf c.1) : c'.2.fdt n = c.2.fdt n ∧ n ∉ watchedOf c'.1 := by
  have hsome : c.2.fdt n ≠ none := by
    intro hnone
    simp [World.isOpen, hnone] at hopen
  refine Changes.invariant (I := fun l w => w.fdt n = c.2.fdt n ∧ n ∉ watchedOf l) (fun l w w' hw hi => ?_)
    (fun pre post r r' w w' he hi => ?_) h ⟨rfl, hn⟩
  · rw [hw.fdt]
    exact hi
  · obtain ⟨hfdt, hout⟩ := hi
    simp only [watchedOf, List.flatMap_append, List.flatMap_cons, List.mem_append, not_or] at hout ⊢
    have hstay : w'.fdt n = w.fdt n ∧ n ∉ r'.watched := by
      cases he with
      | quiet hr hw => exact ⟨by rw [hw.fdt], hr.watched ▸ hout.2.1⟩
      | quit hm hr hw =>
        have hne : n ≠ r.comfd := by
          rintro rfl
          exact hout.2.1 (by simp [DsuSocket.watched, hm])
        refine ⟨by simp [hw.fdt, hne], ?_⟩
        rw [hr.watched]
        exact fun hmem => hout.2.1 (List.mem_append_right _ (by simpa [DsuSocket.watched] using hmem))
      | accepted c hr hw =>
        have hne : n ≠ c := by
          rintro rfl
          exact hsome (hfdt.symm.trans hw.free)
        refine ⟨by simp [hw.fdt, hne], ?_⟩
        rw [hr.watched]
        simp only [DsuSocket.watched, List.mem_append, List.mem_singleton, not_or] at hout ⊢
        exact ⟨hout.2.1.1, hout.2.1.2, hne⟩
      | closed c hc hr hw =>
        have hne : n ≠ c := by
          rintro rfl
          exact hout.2.1 (List.mem_append_right _ hc)
        refine ⟨by simp [hw.fdt, hne], ?_⟩
        rw [hr.watched]
        simp only [DsuSocket.watched, List.mem_append, not_or] at hout ⊢
        exact ⟨hout.2.1.1, fun hmem => hout.2.1.2 (List.mem_of_mem_erase hmem)⟩
      | locked hr hw => exact ⟨by rw [hw.fdt], hr.watched ▸ hout.2.1⟩
      | unlocked _ hr hw => exact ⟨by rw [hw.fdt], hr.watched ▸ hout.2.1⟩
    exact ⟨hstay.1.trans hfdt, hout.1, hstay.2, hout.2.2⟩

/-- A shadow descriptor is open, and nothing that the library watches. -/
theorem Distinct.shadowfd_unwatched {sockets : List DsuSocket} (h : Distinct sockets binds w) (hr : r ∈ binds)
    (hpos : 0 < r.shadowfd) : w.isOpen r.shadowfd = true ∧ r.shadowfd ∉ watchedOf binds := by
  refine ⟨h.isOpen_of_mem hr hpos (shadowfd_mem_numbers r), fun hmem => ?_⟩
  obtain ⟨pre, post, rfl⟩ := List.append_of_mem hr
  have hcount := h.count r.shadowfd hpos
  have hone := w.openings_le r.shadowfd
  rw [numbersOf_count] at hcount
  obtain ⟨x, hx, hwatched⟩ := List.mem_flatMap.mp hmem
  have hnumber : r.shadowfd ∈ x.numbers := by simp [DsuSocket.numbers, hwatched]
  by_cases hxr : x ∈ pre ++ post
  · exact h.not_mem hpos (shadowfd_mem_numbers r) hxr hnumber
  · have hx : x = r := by
      simp only [List.mem_append, List.mem_cons, not_or] at hx hxr
      exact (hx.resolve_left hxr.1).resolve_right hxr.2
    have htwo : 2 ≤ r.numbers.count r.shadowfd := by
      have hwatch : 0 < r.watched.count r.shadowfd := List.count_pos_iff.mpr (hx ▸ hwatched)
      rw [watched_count] at hwatch
      rw [numbers_count]
      by_cases hsame : r.shadowfd = r.fd
      · rw [if_pos hsame, ← hsame, List.count_singleton_self]
        omega
      · rw [if_neg hsame, List.count_singleton_self]
        omega
    omega

/-! ### Event calls -/

/-- What an event call does not write of a record. -/
def DsuSocket.cache (r : DsuSocket) : Int × Bool := (r.shadowfd, r.blocking)

theorem untouched_cache : Untouched DsuSocket.cache := ⟨fun _ => rfl, fun _ => rfl, fun _ _ => rfl, fun _ _ => rfl⟩

/-- The shadow descriptors are no numbers, or open and not watched; and in a process that is live the flags are
    cached. -/
structure Cached (nonblock : Nat → Bool) (p : Proc) : Prop where
  shadow : ∀ r ∈ p.binds, 0 ≤ r.shadowfd → p.world.isOpen r.shadowfd = true ∧ r.shadowfd ∉ watchedOf p.binds
  cached : p.live = true → ∀ r ∈ p.binds, r.blocking = dsuIsBlocking nonblock p.world r.shadowfd

theorem dsuIsBlocking_congr (h : 0 ≤ n → w'.fdt n = w.fdt n) : dsuIsBlocking nonblock w' n = dsuIsBlocking nonblock w n := by
  unfold dsuIsBlocking
  by_cases hn : 0 ≤ n
  · rw [h hn]
  · simp [hn]

theorem cache_back (hcache : q.binds.map DsuSocket.cache = p.binds.map DsuSocket.cache) :
    ∀ r' ∈ q.binds, ∃ r ∈ p.binds, r'.shadowfd = r.shadowfd ∧ r'.blocking = r.blocking := by
  intro r' hr'
  have hmem : r'.cache ∈ p.binds.map DsuSocket.cache := hcache ▸ List.mem_map_of_mem hr'
  obtain ⟨r, hr, hsame⟩ := List.mem_map.mp hmem
  obtain ⟨hshadow, hblocking⟩ := Prod.ext_iff.mp hsame
  exact ⟨r, hr, hshadow.symm, hblocking.symm⟩

namespace Cached

theorem evolve (h : Cached nonblock p) (he : p.Evolves q)
    (hcache : q.binds.map DsuSocket.cache = p.binds.map DsuSocket.cache)
    (hlive : q.live = p.live) : Cached nonblock q := by
  have hold := cache_back hcache
  have hfdt : ∀ r ∈ p.binds, 0 ≤ r.shadowfd →
      q.world.fdt r.shadowfd = p.world.fdt r.shadowfd ∧ r.shadowfd ∉ watchedOf q.binds := fun r hr hnonneg =>
    he.changes.fdt (h.shadow r hr hnonneg).1 (h.shadow r hr hnonneg).2
  refine ⟨fun r' hr' hnonneg => ?_, fun hl r' hr' => ?_⟩
  · obtain ⟨r, hr, hshadow, -⟩ := hold r' hr'
    rw [hshadow] at hnonneg ⊢
    obtain ⟨hsame, hout⟩ := hfdt r hr hnonneg
    refine ⟨?_, hout⟩
    unfold World.isOpen
    rw [hsame]
    exact (h.shadow r hr hnonneg).1
  · obtain ⟨r, hr, hshadow, hblocking⟩ := hold r' hr'
    rw [hshadow, hblocking, h.cached (hlive ▸ hl) r hr]
    exact (dsuIsBlocking_congr fun hnonneg => (hfdt r hr hnonneg).1).symm

/-- In a wait the flags are current. -/
theorem current (h : Cached nonblock p) (hl : p.live = true) : Current K nonblock p where
  cached := h.cached hl
  guarded r hr hblocking handed w htransfer hfree := by
    have hb : r.blocking = true := (h.cached hl r hr).trans hblocking
    unfold tryMonitor at hfree
    simp only [hb, htransfer, decide_true, Bool.or_true, Bool.and_self, if_true] at hfree
    split at hfree
    · split at hfree <;> cases hfree
    · cases hfree

theorem walk_configure (nonblock : Nat → Bool) (l : List DsuSocket) (w : World) :
    (∀ r ∈ (walk (dsuConfigureSocket (K.reading nonblock)) l w).1, r.blocking = dsuIsBlocking nonblock w r.shadowfd) ∧
    (walk (dsuConfigureSocket (K.reading nonblock)) l w).2.fdt = w.fdt := by
  induction l generalizing w with
  | nil => exact ⟨by simp, rfl⟩
  | cons r l ih =>
    obtain ⟨hrest, hfdt⟩ := ih w.tick
    refine ⟨?_, hfdt⟩
    rw [walk_cons]
    exact List.forall_mem_cons.mpr ⟨rfl, hrest⟩

/-- The first event call configures the records. -/
theorem goLive (h : Cached nonblock p) : Cached nonblock (dsuGoLive (K.reading nonblock) p) := by
  by_cases hl : p.live = true
  · have hself : dsuGoLive (K.reading nonblock) p = p := if_pos hl
    rw [hself]
    exact h
  · have hevolves := dsuGoLive_evolves (K.reading nonblock) p
    obtain ⟨hconfigured, hfdt⟩ := walk_configure (K := K) nonblock p.binds (dsuActivateProcess (K.reading nonblock) p.world)
    have hlive : dsuGoLive (K.reading nonblock) p = { p with
        binds := (walk (dsuConfigureSocket (K.reading nonblock)) p.binds
          (dsuActivateProcess (K.reading nonblock) p.world)).1
        world := (walk (dsuConfigureSocket (K.reading nonblock)) p.binds
          (dsuActivateProcess (K.reading nonblock) p.world)).2
        live := true } := if_neg hl
    refine ⟨fun r' hr' hnonneg => ?_, fun _ r' hr' => ?_⟩
    · have hmem : r'.names ∈ p.binds.map DsuSocket.names := hevolves.names ▸ List.mem_map_of_mem hr'
      obtain ⟨r, hr, hsame⟩ := List.mem_map.mp hmem
      have hshadow : r.shadowfd = r'.shadowfd := (Prod.ext_iff.mp hsame).2
      rw [← hshadow] at hnonneg ⊢
      obtain ⟨hopen, hout⟩ := h.shadow r hr hnonneg
      obtain ⟨hstay, hout'⟩ := hevolves.changes.fdt hopen hout
      refine ⟨?_, hout'⟩
      unfold World.isOpen
      rw [hstay]
      exact hopen
    · rw [hlive] at hr' ⊢
      rw [hconfigured r' hr']
      exact (dsuIsBlocking_congr fun _ => congrFun hfdt _).symm

end Cached

theorem dsuGoLive_live (K : Kernel) (p : Proc) : (dsuGoLive K p).live = true := by
  unfold dsuGoLive
  split
  · assumption
  · rfl

theorem dsuInitializeEvent_goLive (K : Kernel) (p : Proc) :
    dsuInitializeEvent K p = dsuInitializeEvent K (dsuGoLive K p) := by
  have hself : dsuGoLive K (dsuGoLive K p) = dsuGoLive K p := if_pos (dsuGoLive_live K p)
  unfold dsuInitializeEvent
  rw [hself]

theorem dsuInitializeEvent_live (K : Kernel) (p : Proc) : (dsuInitializeEvent K p).live = true := by
  have hlive := dsuGoLive_live K p
  unfold dsuInitializeEvent
  simp only
  split
  · exact hlive
  · exact hlive

namespace Cached

theorem initializeEvent (h : Cached nonblock p) : Cached nonblock (dsuInitializeEvent (K.reading nonblock) p) := by
  have hlive := dsuGoLive_live (K.reading nonblock) p
  rw [dsuInitializeEvent_goLive]
  exact h.goLive.evolve (dsuInitializeEvent_evolves _ _) (untouched_cache.initializeEvent _ _ hlive)
    ((dsuInitializeEvent_live _ _).trans hlive.symm)

section Rests
variable (h : Cached nonblock p) (K : Kernel)
include h

theorem selectAsk (nfds : Int) (sets : FdSets) (timeout : Option Nat) :
    Cached nonblock (OpenDSU.selectAsk K p nfds sets timeout).proc :=
  h.evolve (selectAsk_evolves K p nfds sets timeout) (untouched_cache.selectAsk K p nfds sets timeout) rfl

theorem selectRest (nfds : Int) (sets : FdSets) (timeout : Option Nat) :
    Cached nonblock (OpenDSU.selectRest K p nfds sets timeout).1 := by
  refine h.evolve (selectRest_evolves K p nfds sets timeout) (untouched_cache.selectRest K p nfds sets timeout) ?_
  unfold OpenDSU.selectRest
  simp only
  split <;> rfl

theorem pollAsk (fds : List PollFd) : Cached nonblock (OpenDSU.pollAsk K p fds).proc :=
  h.evolve (pollAsk_evolves K p fds) (untouched_cache.pollAsk K p fds) rfl

theorem ppollRest (fds : List PollFd) (timeout : Option Nat) :
    Cached nonblock (OpenDSU.ppollRest K fds timeout p).1 := by
  refine h.evolve (ppollRest_evolves K p fds timeout) (untouched_cache.ppollRest K p fds timeout) ?_
  unfold OpenDSU.ppollRest
  simp only
  repeat' split
  all_goals rfl

theorem preEpoll (epfd : Int) : Cached nonblock { p with
    binds := (dsuPreEpoll K epfd p.binds p.world).1
    world := (dsuPreEpoll K epfd p.binds p.world).2 } :=
  h.evolve ⟨rfl, rfl, rfl, dsuPreEpoll_changes K epfd p.binds p.world⟩ (untouched_cache.preEpoll K p epfd) rfl

theorem epollRest (epfd : Int) (events : Nat → Event) (maxevents : Nat) (timeout : Option Nat) :
    Cached nonblock (OpenDSU.epollRest K epfd events maxevents timeout p).1 := by
  refine h.evolve (epollRest_evolves K p epfd events maxevents timeout)
    (untouched_cache.epollRest K p epfd events maxevents timeout) ?_
  unfold OpenDSU.epollRest
  simp only
  split <;> rfl

end Rests

/-! Each round of a `select` begins with `dsu_initialize_event`. -/

theorem selectRound (h : Cached nonblock p) (nfds : Int) (sets : FdSets) (timeout : Option Nat) :
    Cached nonblock (OpenDSU.selectRound (K.reading nonblock) p nfds sets timeout).1 := by
  unfold OpenDSU.selectRound
  simp only
  split
  · exact h.initializeEvent
  · exact h.initializeEvent.selectRest _ nfds sets timeout

theorem selectWaits (nfds : Int) (sets : FdSets) (timeout : Option Nat) (rounds : Nat) (h : Cached nonblock p) :
    ∀ q ∈ OpenDSU.selectWaits (K.reading nonblock) nfds sets timeout rounds p, Current (K.reading nonblock) nonblock q := by
  induction rounds generalizing p with
  | zero => simp [OpenDSU.selectWaits]
  | succ rounds ih =>
    have hround := h.selectRound (K := K) nfds sets timeout
    unfold OpenDSU.selectWaits
    simp only
    split
    · simp
    · refine List.forall_mem_cons.mpr ⟨?_, ?_⟩
      · exact (h.initializeEvent.selectAsk _ nfds sets timeout).current (dsuInitializeEvent_live _ _)
      · split
        · rename_i q he
          rw [he] at hround
          exact ih hround
        · simp

/-- The flags are current at every entry of a kernel wait. -/
theorem entries (h : Cached nonblock p) (call : Call) :
    ∀ q ∈ call.entries (K.reading nonblock) p, Current (K.reading nonblock) nonblock q := by
  have hinit := h.initializeEvent (K := K)
  have hlive := dsuInitializeEvent_live (K.reading nonblock) p
  cases call with
  | select nfds sets timeout rounds => exact selectWaits nfds sets timeout rounds h
  | ppoll fds timeout =>
    unfold Call.entries
    simp only
    split
    · simp
    · rw [List.forall_mem_singleton]
      exact (hinit.pollAsk _ fds).current hlive
  | epollWait epfd events maxevents timeout =>
    unfold Call.entries
    simp only
    split
    · simp
    · rw [List.forall_mem_singleton]
      exact (hinit.preEpoll _ epfd).current hlive
  | socket | bind | accept | close | epollCtl => simp [Call.entries]

theorem select {nfds : Int} {sets : FdSets} {timeout : Option Nat} {rounds : Nat} {done : Proc × Round}
    (h : Cached nonblock p) (hs : OpenDSU.select (K.reading nonblock) nfds sets timeout rounds p = some done) :
    Cached nonblock done.1 := by
  rw [(select_eq_last hs).1]
  exact (selectLast_inv (I := Cached nonblock) (fun _ _ hc => hc.selectRound nfds sets timeout) rounds p h).selectRound
    nfds sets timeout

/-- An event call leaves the flags cached. -/
theorem step {call : Call} (h : Cached nonblock p) (hcall : call.waits = true)
    (hs : p.step (K.reading nonblock) call = some q) : Cached nonblock q := by
  have hinit := h.initializeEvent (K := K)
  cases call with
  | select nfds sets timeout rounds =>
    obtain ⟨done, hdone, rfl⟩ := Proc.step_select hs
    exact h.select hdone
  | ppoll fds timeout =>
    rw [← Proc.step_ppoll hs]
    unfold ppoll
    simp only
    split
    · exact hinit
    · exact hinit.ppollRest _ fds timeout
  | epollWait epfd events maxevents timeout =>
    rw [← Proc.step_epollWait hs]
    unfold epollWait
    simp only
    split
    · exact hinit
    · exact hinit.epollRest _ epfd events maxevents timeout
  | socket | bind | accept | close | epollCtl => cases hcall

end Cached

/-! ### Calls on sockets -/

theorem World.Opens.fdt_of_open {c : Int} {kind : Kind} (h : w.Opens c kind w') (hn : w.isOpen n = true) :
    w'.fdt n = w.fdt n := by
  have hne : n ≠ c := by
    rintro rfl
    simp [World.isOpen, h.free] at hn
  rw [h.fdt]
  exact if_neg hne

theorem isOpen_of_fdt (h : w'.fdt n = w.fdt n) (hn : w.isOpen n = true) : w'.isOpen n = true := by
  unfold World.isOpen
  rw [h]
  exact hn

theorem dsuReadFd_fdt {fd recvfd port : Int} {kind : Kind} (hn : w.isOpen n = true) :
    (dsuReadFd K w fd recvfd port kind).2.2.fdt n = w.fdt n := by
  rcases dsuReadFd_cases K w fd recvfd port kind with ⟨-, hw⟩ | hw
  · rw [hw.fdt]
  · exact hw.fdt_of_open hn

theorem dsuInheritFd_fdt {s : DsuSocket} (hn : w.isOpen n = true) (hne : n ≠ s.comfd) :
    (dsuInheritFd K s w).2.2.fdt n = w.fdt n := by
  rw [dsuInheritFd_eq]
  split
  · simp only
    rw [(World.closes_close _ K s.comfd).fdt]
    simp only [if_neg hne]
    have hfirst : (dsuReadFd K w.tick s.comfd s.shadowfd 0 .shadow).2.2.fdt n = w.tick.fdt n := dsuReadFd_fdt hn
    exact (dsuReadFd_fdt (isOpen_of_fdt hfirst hn)).trans hfirst
  · rfl

/-- The shadow descriptor after an exchange, by the first message. -/
theorem dsuInheritFd_shadowfd {s : DsuSocket} (hmade : (w.isOpen s.comfd && K.connect w s.comfd) = true) :
    match (w.tick.recvmsg K s.comfd .shadow).1 with
    | .lost => (dsuInheritFd K s w).2.1.shadowfd = s.shadowfd
    | .malformed | .bare _ => (dsuInheritFd K s w).2.1.shadowfd = -1
    | .full fd _ => (dsuInheritFd K s w).2.1.shadowfd = fd ∧
      (dsuInheritFd K s w).2.2.fdt fd = some { id := w.files, kind := .shadow } := by
  rw [dsuInheritFd_eq, if_pos hmade]
  simp only
  have hworld := dsuReadFd_world K w.tick s.comfd s.shadowfd 0 .shadow
  have hfirst : (dsuReadFd K w.tick s.comfd s.shadowfd 0 .shadow).1 =
      match (w.tick.recvmsg K s.comfd .shadow).1 with
      | .lost => s.shadowfd
      | .malformed | .bare _ => -1
      | .full fd _ => fd := by
    unfold dsuReadFd
    simp only
    cases (w.tick.recvmsg K s.comfd .shadow).1 <;> rfl
  generalize dsuReadFd K w.tick s.comfd s.shadowfd 0 .shadow = a at hworld hfirst ⊢
  have hcases := w.tick.recvmsg_cases K s.comfd .shadow
  cases hmsg : (w.tick.recvmsg K s.comfd .shadow).1 with
  | lost | malformed | bare =>
    rw [hmsg] at hfirst
    exact hfirst
  | full fd port =>
    rw [hmsg] at hfirst hcases
    rcases hcases with ⟨hnone, -⟩ | ⟨c, port', hc, hw⟩
    · exact absurd rfl (hnone fd port)
    cases hc
    refine ⟨hfirst, ?_⟩
    have hopen : w.tick.isOpen s.comfd = true := (Bool.and_eq_true_iff.mp hmade).1
    have hne : fd ≠ s.comfd := by
      rintro rfl
      simp [World.isOpen, hw.free] at hopen
    have hnew : a.2.2.fdt fd = some { id := w.files, kind := .shadow } := by
      rw [hworld, hw.fdt]
      exact if_pos rfl
    rw [(World.closes_close _ K s.comfd).fdt]
    simp only [if_neg hne]
    rw [dsuReadFd_fdt (by simp [World.isOpen, hnew])]
    exact hnew

theorem allot_fdt {kind : Kind} (hn : w.isOpen n = true) (hnonneg : 0 ≤ n) :
    (w.allot K kind).2.fdt n = w.fdt n ∧ n ≠ (w.allot K kind).1 := by
  rcases w.allot_cases K kind with ⟨hc, hw⟩ | ⟨c, hc, hw⟩
  · exact ⟨by rw [hw.fdt], by omega⟩
  · refine ⟨hw.fdt_of_open hn, ?_⟩
    rintro rfl
    rw [hc] at hn
    simp [World.isOpen, hw.free] at hn

/-- `bind` leaves the descriptors that are open what they are. -/
theorem bind_fdt (sockfd : Int) (port : Nat) (hn : p.world.isOpen n = true) (hnonneg : 0 ≤ n) :
    (bind K p sockfd port).2.world.fdt n = p.world.fdt n := by
  obtain ⟨hallot, hne⟩ : (p.world.allot K .com).2.fdt n = p.world.fdt n ∧ n ≠ (p.world.allot K .com).1 :=
    allot_fdt hn hnonneg
  rcases bind_cases K p sockfd port with ⟨-, hq⟩ | ⟨s, -, ⟨-, hq⟩ | ⟨-, hq⟩⟩
  · rw [hq]
  · rw [hq.world.fdt]
    exact hallot
  · rw [hq.world.fdt]
    have hopen : (p.world.allot K .com).2.tick.isOpen n = true := isOpen_of_fdt hallot hn
    exact (dsuInheritFd_fdt hopen hne).trans hallot

theorem enterFirst_blocking (pgid : Int) (s : DsuSocket) (w : World) : (enterFirst K pgid s w).1.blocking = s.blocking := by
  unfold enterFirst
  simp only
  split <;> rfl

theorem enterInherit_blocking (pgid : Int) (s : DsuSocket) (w : World) :
    (enterInherit K pgid s w).1.blocking = s.blocking := by
  unfold enterInherit
  simp only
  split <;> rfl

/-- `bind` does not configure the record. -/
theorem bind_blocking (sockfd : Int) (port : Nat) : ∀ r ∈ (bind K p sockfd port).2.binds,
    r ∈ p.binds ∨ ∃ s ∈ p.sockets, r.blocking = s.blocking := by
  have hadd : ∀ (s s' : DsuSocket), s'.blocking = s.blocking → s ∈ p.sockets → ∀ r ∈ p.binds ++ [s'],
      r ∈ p.binds ∨ ∃ s ∈ p.sockets, r.blocking = s.blocking := by
    intro s s' hb hs r hr
    rcases List.mem_append.mp hr with hr | hr
    · exact Or.inl hr
    · exact Or.inr ⟨s, hs, (List.mem_singleton.mp hr).symm ▸ hb⟩
  have hexchange : ∀ (s : DsuSocket) (w : World), (dsuInheritFd K s w).2.1.blocking = s.blocking := by
    intro s w
    rw [dsuInheritFd_eq]
    split <;> rfl
  unfold bind
  split
  · exact fun r hr => Or.inl hr
  · rename_i s hs
    have hmem := (mem_of_search_fd hs).1
    simp only
    split
    · split
      · exact hadd s _ ((enterInherit_blocking ..).trans (hexchange _ _)) hmem
      · exact hadd s _ ((enterFirst_blocking ..).trans (hexchange _ _)) hmem
    · exact hadd s _ (enterFirst_blocking ..) hmem

theorem bind_live (sockfd : Int) (port : Nat) : (bind K p sockfd port).2.live = p.live := by
  unfold bind
  simp only
  repeat' split
  all_goals rfl

theorem bind_sockets (sockfd : Int) (port : Nat) : ∀ s ∈ (bind K p sockfd port).2.sockets, s ∈ p.sockets := by
  rcases bind_cases K p sockfd port with ⟨-, hq⟩ | ⟨s, -, ⟨-, hq⟩ | ⟨-, hq⟩⟩
  · rw [hq]
    exact fun _ hs => hs
  · rw [hq.sockets]
    exact fun _ hs => List.mem_of_mem_eraseP hs
  · rw [hq.sockets]
    exact fun _ hs => List.mem_of_mem_eraseP hs

theorem bindsNonblocking_eq (a : Flagged) (sockfd : Int) (port : Nat) : a.bindsNonblocking K sockfd port =
    let own := !dsuIsBlocking a.nonblock a.proc.world sockfd
    let comfd := (a.proc.world.allot K .com).1
    let w := (a.proc.world.allot K .com).2
    if K.bindName w port = .inUse ∧ (w.tick.isOpen comfd && K.connect w.tick comfd) = true then
      match (w.tick.tick.recvmsg K comfd .shadow).1 with
      | .lost => own
      | .malformed | .bare _ => true
      | .full _ _ => a.nonblock w.files
    else own :=
  rfl

/-- The shadow of the record that `bind` adds: open where it is a number, and non-blocking where the socket that it comes to
    is. -/
theorem bind_shadow {a : Flagged} (sockfd : Int) (port : Nat) (h : Distinct a.proc.sockets a.proc.binds a.proc.world)
    {s : DsuSocket} (hs : dsuSocketsSearchFd a.proc.sockets sockfd = some s) :
    ∃ s', (bind K a.proc sockfd port).2.binds = a.proc.binds ++ [s'] ∧
      (s'.shadowfd = 0 → (bind K a.proc sockfd port).2.world.isOpen 0 = true) ∧
      (a.bindsNonblocking K sockfd port = true →
        dsuIsBlocking a.nonblock (bind K a.proc sockfd port).2.world s'.shadowfd = false) := by
  obtain ⟨hmem, rfl⟩ := mem_of_search_fd hs
  have hpos := h.positive s (List.mem_append_left _ hmem)
  have hshadow := (h.unbound s hmem).1
  have hopen := h.isOpen_of_number hpos (List.mem_append_left _ (List.mem_map_of_mem hmem))
  -- The record keeps the socket of the program.
  have hown : ∀ {s' : DsuSocket}, s'.shadowfd = s.fd →
      (s'.shadowfd = 0 → (bind K a.proc s.fd port).2.world.isOpen 0 = true) ∧
      ((!dsuIsBlocking a.nonblock a.proc.world s.fd) = true →
        dsuIsBlocking a.nonblock (bind K a.proc s.fd port).2.world s'.shadowfd = false) := by
    intro s' hfd
    refine ⟨fun hzero => by omega, fun hnon => ?_⟩
    rw [hfd, dsuIsBlocking_congr fun hnonneg => bind_fdt s.fd port hopen hnonneg]
    simpa using hnon
  rw [bindsNonblocking_eq]
  rcases bind_cases K a.proc s.fd port with ⟨hnone, -⟩ | ⟨s₀, hs₀, hq⟩
  · rw [hs] at hnone
    cases hnone
  cases hs.symm.trans hs₀
  rcases hq with ⟨hfree, hq⟩ | ⟨huse, hq⟩
  · obtain ⟨s', hbinds, -, hshadow', -⟩ := hq.binds
    refine ⟨s', hbinds, ?_⟩
    rw [if_neg fun hc => hfree ((dsuMonitorInit_inUse K).mpr ⟨(Bool.and_eq_true_iff.mp hc.2).1, hc.1⟩)]
    exact hown (hshadow'.trans hshadow)
  · obtain ⟨-, hname⟩ := (dsuMonitorInit_inUse K).mp huse
    obtain ⟨s', hbinds, -, hshadow', -⟩ := hq.binds
    have hworld := hq.world.fdt
    by_cases hmade : ((a.proc.world.allot K .com).2.tick.isOpen (a.proc.world.allot K .com).1 &&
        K.connect (a.proc.world.allot K .com).2.tick (a.proc.world.allot K .com).1) = true
    · have hmsg := dsuInheritFd_shadowfd (s := { s with port := port, comfd := (a.proc.world.allot K .com).1 }) hmade
      simp only [hname, hmade, and_self, if_true]
      cases hm : ((a.proc.world.allot K .com).2.tick.tick.recvmsg K (a.proc.world.allot K .com).1 .shadow).1 with
      | lost =>
        simp only [hm] at hmsg
        exact ⟨s', hbinds, hown ((hshadow'.trans hmsg).trans hshadow)⟩
      | malformed | bare =>
        simp only [hm] at hmsg
        have hfd : s'.shadowfd = -1 := hshadow'.trans hmsg
        refine ⟨s', hbinds, fun hzero => by omega, fun _ => ?_⟩
        rw [hfd]
        rfl
      | full fd port' =>
        simp only [hm] at hmsg
        have hfd : s'.shadowfd = fd := hshadow'.trans hmsg.1
        have hfile : (bind K a.proc s.fd port).2.world.fdt fd =
            some { id := (a.proc.world.allot K .com).2.files, kind := .shadow } := (congrFun hworld fd).trans hmsg.2
        refine ⟨s', hbinds, fun hzero => ?_, fun hnon => ?_⟩
        · rw [← hzero, hfd]
          simp [World.isOpen, hfile]
        · rw [hfd]
          simp [dsuIsBlocking, hfile, hnon]
    · have hsame : (dsuInheritFd K { s with port := port, comfd := (a.proc.world.allot K .com).1 }
          (a.proc.world.allot K .com).2.tick).2.1.shadowfd = s.shadowfd := by
        rw [dsuInheritFd_eq, if_neg hmade]
      refine ⟨s', hbinds, ?_⟩
      rw [if_neg fun hc => hmade hc.2]
      exact hown ((hshadow'.trans hsame).trans hshadow)

/-! ### Runs -/

/-- The invariant of a run. -/
structure Flagged.Sound (a : Flagged) : Prop where
  distinct : Distinct a.proc.sockets a.proc.binds a.proc.world
  zero : ∀ r ∈ a.proc.binds, r.shadowfd = 0 → a.proc.world.isOpen 0 = true
  cached : a.proc.live = true → ∀ r ∈ a.proc.binds, r.blocking = dsuIsBlocking a.nonblock a.proc.world r.shadowfd
  unconfigured : ∀ s ∈ a.proc.sockets, s.blocking = false

namespace Flagged.Sound
variable {a : Flagged} (h : a.Sound)
include h

theorem isOpen {r : DsuSocket} (hr : r ∈ a.proc.binds) (hnonneg : 0 ≤ r.shadowfd) :
    a.proc.world.isOpen r.shadowfd = true := by
  rcases hnonneg.lt_or_eq with hpos | hzero
  · exact (h.distinct.shadowfd_unwatched hr hpos).1
  · exact hzero ▸ h.zero r hr hzero.symm

theorem toCached (hout : ∀ r ∈ a.proc.binds, r.shadowfd = 0 → 0 ∉ watchedOf a.proc.binds) :
    Cached a.nonblock a.proc where
  shadow r hr hnonneg := by
    refine ⟨h.isOpen hr hnonneg, ?_⟩
    rcases hnonneg.lt_or_eq with hpos | hzero
    · exact (h.distinct.shadowfd_unwatched hr hpos).2
    · exact hzero ▸ hout r hr hzero.symm
  cached := h.cached

/-- What is open stays what it is. -/
theorem frame (hd : Distinct q.sockets q.binds q.world)
    (hcache : q.binds.map DsuSocket.cache = a.proc.binds.map DsuSocket.cache) (hlive : q.live = a.proc.live)
    (hfdt : ∀ n, a.proc.world.isOpen n = true → q.world.fdt n = a.proc.world.fdt n)
    (hunconfigured : ∀ s ∈ q.sockets, s.blocking = false) : Sound { a with proc := q } := by
  have hold := cache_back hcache
  refine ⟨hd, fun r' hr' hzero => ?_, fun hl r' hr' => ?_, hunconfigured⟩
  · obtain ⟨r, hr, hshadow, -⟩ := hold r' hr'
    have hopen := h.zero r hr (hshadow.symm.trans hzero)
    exact isOpen_of_fdt (hfdt 0 hopen) hopen
  · obtain ⟨r, hr, hshadow, hblocking⟩ := hold r' hr'
    rw [hshadow, hblocking, h.cached (hlive.symm.trans hl) r hr]
    exact (dsuIsBlocking_congr fun hnonneg => hfdt _ (h.isOpen hr hnonneg)).symm

theorem socket : Sound { a with proc := (OpenDSU.socket K a.proc).2 } := by
  have hd := socket_distinct (K := K) h.distinct
  have hfdt : ∀ n, a.proc.world.isOpen n = true → (a.proc.world.allot K .user).2.fdt n = a.proc.world.fdt n := by
    intro n hn
    rcases a.proc.world.allot_cases K .user with ⟨-, hw⟩ | ⟨c, -, hw⟩
    · rw [hw.fdt]
    · exact hw.fdt_of_open hn
  unfold OpenDSU.socket at hd ⊢
  simp only at hd ⊢
  split at hd
  · rename_i hpos
    rw [if_pos hpos]
    refine h.frame hd rfl rfl hfdt fun s hs => ?_
    rcases List.mem_append.mp hs with hs | hs
    · exact h.unconfigured s hs
    · rw [List.mem_singleton] at hs
      rw [hs]
      rfl
  · rename_i hneg
    rw [if_neg hneg]
    exact h.frame hd rfl rfl hfdt h.unconfigured

theorem epollCtl (epfd : Int) (op : EpollOp) (fd : Int) (event : EpollEvent) :
    Sound { a with proc := (OpenDSU.epollCtl K a.proc epfd op fd event).2 } := by
  have hfdt := fun d => World.epollCtl_fdt a.proc.world K epfd op d event false
  refine h.frame (epollCtl_distinct epfd op fd event h.distinct) ?_ ?_ (fun n _ => ?_) ?_ <;>
    unfold OpenDSU.epollCtl <;> split
  · rfl
  · refine map_dsuSocketsUpdate ?_ _
    exact fun _ => rfl
  · rfl
  · rfl
  · exact congrFun (hfdt fd) n
  · exact congrFun (hfdt _) n
  · exact h.unconfigured
  · exact h.unconfigured

theorem bind (sockfd : Int) (port : Nat)
    (hc : a.proc.live = true → (dsuSocketsSearchFd a.proc.sockets sockfd).isSome = true →
      a.bindsNonblocking K sockfd port = true) : Sound { a with proc := (OpenDSU.bind K a.proc sockfd port).2 } := by
  have hd := bind_distinct (K := K) sockfd port h.distinct
  cases hfind : dsuSocketsSearchFd a.proc.sockets sockfd with
  | none =>
    have hself : (OpenDSU.bind K a.proc sockfd port).2 = a.proc := by
      unfold OpenDSU.bind
      rw [hfind]
    rw [hself]
    exact h
  | some s =>
    obtain ⟨s', hbinds, hzero', hnon⟩ := bind_shadow (K := K) sockfd port h.distinct hfind
    have hfdt : ∀ r ∈ a.proc.binds, 0 ≤ r.shadowfd →
        (OpenDSU.bind K a.proc sockfd port).2.world.fdt r.shadowfd = a.proc.world.fdt r.shadowfd :=
      fun r hr hnonneg => bind_fdt sockfd port (h.isOpen hr hnonneg) hnonneg
    have hold : a.proc.live = true → ∀ r ∈ a.proc.binds, r.blocking =
        dsuIsBlocking a.nonblock (OpenDSU.bind K a.proc sockfd port).2.world r.shadowfd := fun hl r hr => by
      rw [h.cached hl r hr]
      exact (dsuIsBlocking_congr (hfdt r hr)).symm
    refine ⟨hd, fun r hr hzero => ?_, fun hl r hr => ?_, fun x hx => h.unconfigured x (bind_sockets sockfd port x hx)⟩
    · simp only [hbinds, List.mem_append, List.mem_singleton] at hr
      rcases hr with hr | rfl
      · have hopen := h.zero r hr hzero
        exact isOpen_of_fdt (bind_fdt sockfd port hopen (Int.le_refl 0)) hopen
      · exact hzero' hzero
    · have hl : a.proc.live = true := (bind_live sockfd port).symm.trans hl
      rcases bind_blocking sockfd port r hr with hr | ⟨x, hx, hblocking⟩
      · exact hold hl r hr
      · simp only [hbinds, List.mem_append, List.mem_singleton] at hr
        rcases hr with hr | rfl
        · exact hold hl r hr
        · rw [hblocking, h.unconfigured x hx]
          exact (hnon (hc hl (by simp [hfind]))).symm

theorem setfl (fd : Int) (v : Bool)
    (hc : a.proc.live = true → ∀ file ∈ a.target fd, ∀ r ∈ a.proc.binds,
      (a.proc.world.fdt r.shadowfd).map File.id = some file.id → a.nonblock file.id = v) :
    Sound { a with nonblock := a.afterSetfl fd v } := by
  refine ⟨h.distinct, h.zero, fun hl r hr => ?_, h.unconfigured⟩
  rw [h.cached hl r hr]
  unfold Flagged.afterSetfl
  cases htarget : a.target fd with
  | none => rfl
  | some file =>
    unfold dsuIsBlocking
    cases hfile : a.proc.world.fdt r.shadowfd with
    | none => simp
    | some file' =>
      have hsame : Function.update a.nonblock file.id v file'.id = a.nonblock file'.id := by
        by_cases hid : file'.id = file.id
        · rw [hid, Function.update_self]
          exact (hc hl file htarget r hr (by simp [hfile, hid])).symm
        · exact Function.update_of_ne hid _ _
      simp [hsame]

theorem event {call : Call} (hcall : call.waits = true) (hs : a.proc.step (K.reading a.nonblock) call = some q)
    (hout : ∀ r ∈ a.proc.binds, r.shadowfd = 0 → 0 ∉ watchedOf a.proc.binds) : Sound { a with proc := q } := by
  have he := step_evolves hcall hs
  have hq := (h.toCached hout).step hcall hs
  refine ⟨?_, fun r hr hzero => ?_, hq.cached, ?_⟩
  · rw [he.sockets]
    exact he.changes.distinct h.distinct
  · exact hzero ▸ (hq.shadow r hr hzero.ge).1
  · rw [he.sockets]
    exact h.unconfigured

end Flagged.Sound

theorem step_flagSound {a b : Flagged} {call : FlagCall} (h : a.Sound) (hc : call.Settled K a)
    (hs : a.step K call = some b) : b.Sound := by
  cases call with
  | socket =>
    obtain ⟨q, hq, rfl⟩ := Option.map_eq_some_iff.mp hs
    cases step_takes hq with
    | socket => exact h.socket
    | event hcall => cases hcall
  | bind sockfd port =>
    obtain ⟨q, hq, rfl⟩ := Option.map_eq_some_iff.mp hs
    cases step_takes hq with
    | bind => exact h.bind sockfd port hc
    | event hcall => cases hcall
  | setfl fd v =>
    obtain ⟨-, hs⟩ := Option.ite_none_left_eq_some.mp hs
    cases hs
    exact h.setfl fd v hc
  | event call =>
    unfold Flagged.step at hs
    cases call with
    | select | ppoll | epollWait =>
      obtain ⟨q, hq, rfl⟩ := Option.map_eq_some_iff.mp hs
      exact h.event rfl hq (hc rfl)
    | epollCtl epfd op fd event =>
      obtain ⟨q, hq, rfl⟩ := Option.map_eq_some_iff.mp hs
      cases step_takes hq with
      | epollCtl => exact h.epollCtl epfd op fd event
      | event hcall => cases hcall
    | socket | bind | accept | close => cases hs

theorem Proc.Started.flagSound {a : Flagged} (h : a.proc.Started) : a.Sound where
  distinct := h.distinct
  zero := by simp [h.binds]
  cached := by simp [h.binds]
  unconfigured := by simp [h.sockets]

instance (K : Kernel) (a : Flagged) : (call : FlagCall) → Decidable (call.Settled K a)
  | .socket => .isTrue trivial
  | .bind .. => inferInstanceAs (Decidable (_ = _ → _ = _ → _ = _))
  | .setfl .. => inferInstanceAs (Decidable (_ = _ → ∀ _ ∈ _, ∀ _ ∈ _, _ = _ → _ = _))
  | .event _ => inferInstanceAs (Decidable (_ = _ → ∀ _ ∈ _, _ = _ → _ ∉ _))

/-- A process that has just been loaded, and whose files are all blocking. -/
def Flagged.loaded : Flagged where
  proc := .loaded
  nonblock := fun _ => false

end OpenDSU
