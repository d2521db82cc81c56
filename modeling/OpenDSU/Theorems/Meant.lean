import OpenDSU.Io
import OpenDSU.Theorems.Renaming
import OpenDSU.Theorems.Cached
import OpenDSU.Theorems.BindAtomic

/-! The wrappers that pass a call on come to what the program means, whatever the event calls in between have accepted,
closed and answered: a shadow descriptor stands for one open file for as long as its record does. -/

namespace OpenDSU

namespace Meant

/-- Every descriptor of the program means an open file, and each wrapper acts on this file. -/
structure Transparent (a : Meant) : Prop where
  file : ∀ fd, a.held.own fd = true → (a.means fd).isSome = true
  io : ∀ fd, a.held.own fd = true → ∀ {δ β : Type} (f : Io δ → Option File → β) (io : Io δ),
    io.wrapper (onFile f) a.held.proc fd = f io (a.means fd)

/-- The invariant: the shadow descriptors stand for what the program means. -/
structure Sound (a : Meant) : Prop where
  held : a.held.Sound
  means : ∀ fd, a.held.own fd = true → a.held.proc.world.fdt (dsuShadowfd a.held.proc.binds fd) = a.means fd

end Meant

variable {K : Kernel} {p q : Proc} {w w' : World} {binds : List DsuSocket} {n c : Int}

/-- Each wrapper is its system call on the shadow descriptor. -/
theorem Io.wrapper_eq {δ β : Type} (dsu : Syscalls δ β) (p : Proc) (fd : Int) (io : Io δ) :
    io.wrapper dsu p fd = dsu io p.world (dsuShadowfd p.binds fd) := by
  cases io <;> rfl

/-! ### The translation after a change of the records -/

theorem search_eraseP_of_ne (hne : n ≠ c) :
    dsuSocketsSearchFd (dsuSocketsRemoveFd binds c) n = dsuSocketsSearchFd binds n := by
  unfold dsuSocketsRemoveFd dsuSocketsSearchFd
  induction binds with
  | nil => rfl
  | cons r binds ih =>
    by_cases hr : r.fd = c
    · have hrn : (r.fd == n) = false := by simpa [hr] using Ne.symm hne
      rw [List.eraseP_cons_of_pos (by simpa using hr), List.find?_cons_of_neg (by simp [hrn])]
    · rw [List.eraseP_cons_of_neg (by simpa using hr)]
      simp only [List.find?_cons, ih]

theorem dsuShadowfd_remove (hne : n ≠ c) : dsuShadowfd (dsuSocketsRemoveFd binds c) n = dsuShadowfd binds n := by
  unfold dsuShadowfd
  rw [search_eraseP_of_ne hne]

theorem dsuShadowfd_of_none (h : dsuSocketsSearchFd binds n = none) : dsuShadowfd binds n = n := by
  unfold dsuShadowfd
  rw [h]

theorem dsuShadowfd_add (s : DsuSocket) (hne : n ≠ s.fd) : dsuShadowfd (binds ++ [s]) n = dsuShadowfd binds n := by
  unfold dsuShadowfd dsuSocketsSearchFd
  rw [List.find?_append, List.find?_cons_of_neg (by simpa using Ne.symm hne), List.find?_nil, Option.or_none]

theorem dsuShadowfd_added (s : DsuSocket) (h : dsuSocketsSearchFd binds s.fd = none) :
    dsuShadowfd (binds ++ [s]) s.fd = s.shadowfd := by
  unfold dsuShadowfd
  unfold dsuSocketsSearchFd at h ⊢
  rw [List.find?_append, h, Option.none_or, List.find?_cons_of_pos (by simp)]

theorem dsuShadowfd_update {test : DsuSocket → Bool} {f : DsuSocket → DsuSocket} (hf : ∀ r, (f r).names = r.names)
    (n : Int) :
    dsuShadowfd (dsuSocketsUpdate test f binds) n = dsuShadowfd binds n :=
  dsuShadowfd_congr (map_dsuSocketsUpdate hf binds) n

theorem socket_shape (p : Proc) : (socket K p).1 = (p.world.allot K .user).1 ∧ (socket K p).2.binds = p.binds ∧
    (socket K p).2.world = (p.world.allot K .user).2 := by
  unfold socket
  simp only
  split
  · exact ⟨rfl, rfl, rfl⟩
  · exact ⟨rfl, rfl, rfl⟩

theorem accept_shape (p : Proc) (sockfd : Int) : ∃ kind,
    (accept K p sockfd).1 = (p.world.accept K (dsuShadowfd p.binds sockfd) kind).1 ∧
    (∀ n, dsuShadowfd (accept K p sockfd).2.binds n = dsuShadowfd p.binds n) ∧
    (accept K p sockfd).2.world = (p.world.accept K (dsuShadowfd p.binds sockfd) kind).2 := by
  refine ⟨if (dsuSocketsSearchFd p.binds sockfd).isSome then .client else .user, ?_⟩
  unfold accept
  simp only
  generalize p.world.accept K (dsuShadowfd p.binds sockfd) _ = session
  split
  · rename_i hfail
    exact ⟨hfail.symm, fun _ => rfl, rfl⟩
  · refine ⟨rfl, fun n => dsuShadowfd_update ?_ n, rfl⟩
    exact fun _ => rfl

/-- `close` takes away no name but that of its descriptor. -/
theorem close_shadowfd (p : Proc) (hne : n ≠ c) : dsuShadowfd (close K p c).binds n = dsuShadowfd p.binds n := by
  unfold close
  split
  · rfl
  split
  · rfl
  split
  · exact dsuShadowfd_remove hne
  split
  · refine dsuShadowfd_update ?_ n
    exact fun _ => rfl
  split
  · refine dsuShadowfd_update ?_ n
    exact fun _ => rfl
  split
  · refine dsuShadowfd_update ?_ n
    exact fun _ => rfl
  · rfl

theorem close_world (p : Proc) (c : Int) : (close K p c).world = p.world.close K c := by
  unfold close
  repeat' split
  all_goals rfl

/-- A record that `bind` can move is not that of a bound socket. -/
theorem Distinct.search_binds {sockets : List DsuSocket} {s : DsuSocket} (h : Distinct sockets binds w) (hs : s ∈ sockets) :
    dsuSocketsSearchFd binds s.fd = none := by
  refine List.find?_eq_none.mpr fun r hr he => ?_
  have hfd : r.fd = s.fd := by simpa using he
  have hpos := h.positive s (List.mem_append_left _ hs)
  have hcount := h.count s.fd hpos
  have hone := w.openings_le s.fd
  have hsocket : 0 < (sockets.map (·.fd)).count s.fd := List.count_pos_iff.mpr (List.mem_map_of_mem hs)
  have hbound : 0 < (binds.flatMap DsuSocket.numbers).count s.fd :=
    List.count_pos_iff.mpr (List.mem_flatMap.mpr ⟨r, hr, hfd ▸ fd_mem_numbers r⟩)
  rw [numbersOf, List.count_append] at hcount
  omega

/-! ### What the program has -/

namespace Possession.Sound

variable {a : Possession} (h : a.Sound)
include h

/-- The shadow of what the program has is open, and the library does not watch it. -/
theorem shadow_unwatched (hn : a.own n = true) :
    a.proc.world.isOpen (dsuShadowfd a.proc.binds n) = true ∧
    dsuShadowfd a.proc.binds n ∉ watchedOf a.proc.binds ∧ 0 ≤ dsuShadowfd a.proc.binds n := by
  cases hfind : dsuSocketsSearchFd a.proc.binds n with
  | none =>
    have hforeign := h.foreign n (Or.inl hn)
    have hhigh := h.high n hn
    rw [dsuShadowfd_of_none hfind]
    exact ⟨hforeign.isOpen, hforeign.unwatched, by omega⟩
  | some r =>
    obtain ⟨hr, -⟩ := mem_of_search_fd hfind
    have hpos := h.positive r hr
    have hshadow : dsuShadowfd a.proc.binds n = r.shadowfd := by
      unfold dsuShadowfd
      rw [hfind]
    rw [hshadow]
    obtain ⟨hopen, hout⟩ := h.distinct.shadowfd_unwatched hr hpos
    exact ⟨hopen, hout, hpos.le⟩

/-- The shadow of another descriptor is not the one that the program closes. -/
theorem shadow_ne (hc : a.own c = true) (hne : n ≠ c) : dsuShadowfd a.proc.binds n ≠ c := by
  intro he
  cases hfind : dsuSocketsSearchFd a.proc.binds n with
  | none =>
    rw [dsuShadowfd_of_none hfind] at he
    exact hne he
  | some r =>
    obtain ⟨hr, hfd⟩ := mem_of_search_fd hfind
    have hshadow : r.shadowfd = c := by
      unfold dsuShadowfd at he
      rwa [hfind] at he
    exact hne (hfd.symm.trans ((h.foreign c (Or.inl hc)).shadow r hr hshadow))

/-- A number that is not open is the descriptor of no record. -/
theorem shadowfd_of_free (hc : Free a.proc.world c) : dsuShadowfd a.proc.binds c = c := by
  refine dsuShadowfd_of_none (List.find?_eq_none.mpr fun r hr he => ?_)
  have hfd : r.fd = c := by simpa using he
  have hpos := h.lt_of_free hc
  have hopen := h.distinct.isOpen_of_mem hr (n := c) (by omega) (hfd ▸ fd_mem_numbers r)
  rw [hc.2] at hopen
  cases hopen

end Possession.Sound

/-- An exchange that delivers hands the listening socket over, under the shadow descriptor of the record that `bind` adds; in
    every other case the record keeps the socket of the program. -/
theorem bind_inherited {s : DsuSocket} (sockfd : Int) (port : Nat) (hs : dsuSocketsSearchFd p.sockets sockfd = some s)
    (hK : Call.Delivers K p (.bind sockfd port)) :
    ∃ s', (bind K p sockfd port).2.binds = p.binds ++ [s'] ∧ s'.fd = sockfd ∧
      match inherited K p sockfd port with
      | some file => (bind K p sockfd port).2.world.fdt s'.shadowfd = some file
      | none => s'.shadowfd = s.shadowfd := by
  obtain ⟨-, rfl⟩ := mem_of_search_fd hs
  have hsome : (dsuSocketsSearchFd p.sockets s.fd).isSome = true := by simp [hs]
  unfold inherited
  simp only [hsome, true_and]
  rcases bind_cases K p s.fd port with ⟨hnone, -⟩ | ⟨s₀, hs₀, hq⟩
  · rw [hs] at hnone
    cases hnone
  cases hs.symm.trans hs₀
  rcases hq with ⟨hfree, hq⟩ | ⟨huse, hq⟩
  · obtain ⟨s', hbinds, hfd, hshadow, -⟩ := hq.binds
    refine ⟨s', hbinds, hfd, ?_⟩
    rw [if_neg fun hc => hfree ((dsuMonitorInit_inUse K).mpr ⟨(Bool.and_eq_true_iff.mp hc.2).1, hc.1⟩)]
    exact hshadow
  · obtain ⟨-, hname⟩ := (dsuMonitorInit_inUse K).mp huse
    obtain ⟨s', hbinds, hfd, hshadow, -⟩ := hq.binds
    have hkept := dsuInheritFd_fd (K := K) { s with port := port, comfd := (p.world.allot K .com).1 }
      (p.world.allot K .com).2.tick
    refine ⟨s', hbinds, hfd.trans hkept, ?_⟩
    by_cases hmade : ((p.world.allot K .com).2.tick.isOpen (p.world.allot K .com).1 &&
        K.connect (p.world.allot K .com).2.tick (p.world.allot K .com).1) = true
    · have hmsg := dsuInheritFd_shadowfd (s := { s with port := port, comfd := (p.world.allot K .com).1 }) hmade
      have hfull : ((p.world.allot K .com).2.tick.tick.recvmsg K (p.world.allot K .com).1 .shadow).1.isFull = true :=
        (Bool.and_eq_true_iff.mp (hK hname hmade)).1
      have hcases := (p.world.allot K .com).2.tick.tick.recvmsg_cases K (p.world.allot K .com).1 .shadow
      rw [if_pos ⟨hname, hmade⟩]
      generalize (p.world.allot K .com).2.tick.tick.recvmsg K (p.world.allot K .com).1 .shadow = m at hmsg hfull hcases ⊢
      obtain ⟨m, w⟩ := m
      cases m with
      | lost | malformed | bare => cases hfull
      | full fd port' =>
        rcases hcases with ⟨hnone, -⟩ | ⟨c, port'', hc, hw⟩
        · exact absurd rfl (hnone fd port')
        cases hc
        have hfile : w.fdt fd = some { id := (p.world.allot K .com).2.files, kind := .shadow } := by
          rw [hw.fdt]
          exact if_pos rfl
        simp only [hfile]
        rw [hq.world.fdt, hshadow.trans hmsg.1]
        exact hmsg.2
    · rw [if_neg fun hc => hmade hc.2]
      have hsame : (dsuInheritFd K { s with port := port, comfd := (p.world.allot K .com).1 }
          (p.world.allot K .com).2.tick).2.1.shadowfd = s.shadowfd := by
        rw [dsuInheritFd_eq, if_neg hmade]
      exact hshadow.trans hsame

/-! ### Runs -/

namespace Meant.Sound

variable {a : Meant} (h : a.Sound)
include h

/-- What the program had keeps its meaning where its shadow stays the same and keeps its file. -/
theorem kept (hn : a.held.own n = true) (hshadow : dsuShadowfd q.binds n = dsuShadowfd a.held.proc.binds n)
    (hfdt : q.world.fdt (dsuShadowfd a.held.proc.binds n) = a.held.proc.world.fdt (dsuShadowfd a.held.proc.binds n)) :
    q.world.fdt (dsuShadowfd q.binds n) = a.means n := by
  rw [hshadow, hfdt]
  exact h.means n hn

/-- A new descriptor stands for its own file, and the others stay what they are. -/
theorem opened {kind : Kind} (hw : a.held.proc.world.Opens c kind w') (hq : q.world = w')
    (hshadow : ∀ n, dsuShadowfd q.binds n = dsuShadowfd a.held.proc.binds n)
    (hn : Function.update a.held.own c true n = true) :
    q.world.fdt (dsuShadowfd q.binds n) = Function.update a.means c (q.world.fdt c) n := by
  by_cases hnc : n = c
  · subst hnc
    rw [Function.update_self, hshadow, h.held.shadowfd_of_free hw.free_number]
  · rw [Function.update_of_ne hnc] at hn ⊢
    exact h.kept hn (hshadow n) (hq ▸ hw.fdt_of_open (h.held.shadow_unwatched hn).1)

theorem socket (hn : a.held.after K .socket n = true) :
    (OpenDSU.socket K a.held.proc).2.world.fdt (dsuShadowfd (OpenDSU.socket K a.held.proc).2.binds n) =
      a.means.after K a.held.proc .socket n := by
  obtain ⟨hfd, hbinds, hworld⟩ := socket_shape (K := K) a.held.proc
  simp only [Possession.after, Meaning.after, hfd] at hn ⊢
  rcases a.held.proc.world.allot_cases K .user with ⟨hc, hw⟩ | ⟨c, hc, hw⟩
  · rw [hc, if_pos rfl] at hn ⊢
    exact h.kept hn (by rw [hbinds]) (by rw [hworld, hw.fdt])
  · have hne : c ≠ -1 := by
      have := hw.nonneg
      omega
    rw [hc, if_neg hne] at hn ⊢
    exact h.opened hw hworld (fun n => by rw [hbinds]) hn

theorem accept (sockfd : Int) (hn : a.held.after K (.accept sockfd) n = true) :
    (OpenDSU.accept K a.held.proc sockfd).2.world.fdt (dsuShadowfd (OpenDSU.accept K a.held.proc sockfd).2.binds n) =
      a.means.after K a.held.proc (.accept sockfd) n := by
  obtain ⟨kind, hfd, hshadow, hworld⟩ := accept_shape (K := K) a.held.proc sockfd
  simp only [Possession.after, Meaning.after, hfd] at hn ⊢
  rcases a.held.proc.world.accept_cases K (dsuShadowfd a.held.proc.binds sockfd) kind with ⟨hc, hw⟩ | ⟨c, hc, hw⟩
  · rw [hc, if_pos rfl] at hn ⊢
    exact h.kept hn (hshadow n) (by rw [hworld, hw.fdt])
  · have hne : c ≠ -1 := by
      have := hw.nonneg
      omega
    rw [hc, if_neg hne] at hn ⊢
    exact h.opened hw hworld hshadow hn

theorem close (hc : a.held.own c = true) (hn : a.held.after K (.close c) n = true) :
    (OpenDSU.close K a.held.proc c).world.fdt (dsuShadowfd (OpenDSU.close K a.held.proc c).binds n) =
      a.means.after K a.held.proc (.close c) n := by
  simp only [Possession.after, Meaning.after] at hn ⊢
  by_cases hnc : n = c
  · rw [hnc, Function.update_self] at hn
    cases hn
  · rw [Function.update_of_ne hnc] at hn ⊢
    refine h.kept hn (close_shadowfd a.held.proc hnc) ?_
    rw [close_world, (World.closes_close _ K c).fdt]
    exact if_neg (h.held.shadow_ne hc hnc)

theorem bind (sockfd : Int) (port : Nat) (hK : Call.Delivers K a.held.proc (.bind sockfd port)) (hn : a.held.own n = true) :
    (OpenDSU.bind K a.held.proc sockfd port).2.world.fdt
        (dsuShadowfd (OpenDSU.bind K a.held.proc sockfd port).2.binds n) =
      a.means.after K a.held.proc (.bind sockfd port) n := by
  have hunwatched := h.held.shadow_unwatched hn
  have hstay := bind_fdt (K := K) sockfd port hunwatched.1 hunwatched.2.2
  simp only [Meaning.after]
  cases hs : dsuSocketsSearchFd a.held.proc.sockets sockfd with
  | none =>
    have hself : (OpenDSU.bind K a.held.proc sockfd port).2 = a.held.proc := by
      unfold OpenDSU.bind
      rw [hs]
    have hnone : inherited K a.held.proc sockfd port = none := by
      simp [inherited, hs]
    rw [hself, hnone]
    exact h.means n hn
  | some s =>
    obtain ⟨hmem, hfds⟩ := mem_of_search_fd hs
    obtain ⟨s', hbinds, hfd, hfile⟩ := bind_inherited sockfd port hs hK
    generalize inherited K a.held.proc sockfd port = file at hfile ⊢
    by_cases hne : n = sockfd
    · subst hne
      have hshadow : dsuShadowfd (OpenDSU.bind K a.held.proc n port).2.binds n = s'.shadowfd := by
        have hnew := h.held.distinct.search_binds hmem
        rw [hfds, ← hfd] at hnew
        rw [hbinds, ← hfd]
        exact dsuShadowfd_added s' hnew
      rw [hshadow]
      cases file with
      | some file =>
        simp only [Function.update_self]
        exact hfile
      | none =>
        have hown : dsuShadowfd a.held.proc.binds n = n := dsuShadowfd_of_none (hfds ▸ h.held.distinct.search_binds hmem)
        have hmeans := h.means n hn
        rw [hown] at hstay hmeans
        rw [hfile, (h.held.distinct.unbound s hmem).1, hfds, hstay]
        exact hmeans
    · have hshadow : dsuShadowfd (OpenDSU.bind K a.held.proc sockfd port).2.binds n = dsuShadowfd a.held.proc.binds n := by
        rw [hbinds]
        exact dsuShadowfd_add s' (hfd ▸ hne)
      have hkept := h.kept hn hshadow hstay
      cases file with
      | some file =>
        simp only [Function.update_of_ne hne]
        exact hkept
      | none => exact hkept

theorem epollCtl (epfd : Int) (op : EpollOp) (fd : Int) (event : EpollEvent) (hn : a.held.own n = true) :
    (OpenDSU.epollCtl K a.held.proc epfd op fd event).2.world.fdt
        (dsuShadowfd (OpenDSU.epollCtl K a.held.proc epfd op fd event).2.binds n) = a.means n := by
  have hfdt := fun d => World.epollCtl_fdt a.held.proc.world K epfd op d event false
  refine h.kept hn ?_ ?_ <;> unfold OpenDSU.epollCtl <;> split
  · rfl
  · refine dsuShadowfd_update ?_ n
    exact fun _ => rfl
  · exact congrFun (hfdt fd) _
  · exact congrFun (hfdt _) _

theorem event (he : a.held.proc.Evolves q) (hn : a.held.own n = true) :
    q.world.fdt (dsuShadowfd q.binds n) = a.means n := by
  have hunwatched := h.held.shadow_unwatched hn
  exact h.kept hn (dsuShadowfd_congr he.names n) (he.changes.fdt hunwatched.1 hunwatched.2.1).1

theorem transparent : a.Transparent where
  file fd hfd := by
    rw [← h.means fd hfd]
    exact (h.held.shadow_unwatched hfd).1
  io fd hfd δ β f io := by
    rw [Io.wrapper_eq, ← h.means fd hfd]
    rfl

end Meant.Sound

theorem step_meant {a b : Meant} {call : Call} (h : a.Sound) (hp : a.held.Passes call) (hK : call.Delivers K a.held.proc)
    (hs : a.step K call = some b) : b.Sound := by
  obtain ⟨held, hheld, rfl⟩ := Option.map_eq_some_iff.mp hs
  refine ⟨step_sound h.held hp hK hheld, fun n hn => ?_⟩
  obtain ⟨q, hq, rfl⟩ := Option.map_eq_some_iff.mp hheld
  cases step_takes hq with
  | socket => exact h.socket hn
  | bind sockfd port => exact h.bind sockfd port hK hn
  | accept sockfd => exact h.accept sockfd hn
  | close sockfd => exact h.close hp hn
  | epollCtl epfd op fd event => exact h.epollCtl epfd op fd event hn
  | event hcall he =>
    cases call with
    | select | ppoll | epollWait => exact h.event he hn
    | socket | bind | accept | close | epollCtl => cases hcall

theorem Meant.sound_init {a : Meant} (h : (meantMachine K).init a) : a.Sound :=
  ⟨Possession.sound_init h.1, fun n hn => by simp [h.1.2.2] at hn⟩

/-- A process that has just been loaded, and has obtained nothing yet. -/
def Meant.loaded : Meant where
  held := .loaded
  means := fun _ => none

end OpenDSU
