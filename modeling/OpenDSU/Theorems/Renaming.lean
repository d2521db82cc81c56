import OpenDSU.Theorems.Tracking

/-! The shadow descriptors as other names of what the program has.

The program closes only what it has obtained, so that the numbers of the records stay apart; and what it has, also
where no record knows of it, is open and no number that the library has for itself. -/

namespace OpenDSU

/-- The message brings a descriptor. -/
def Msg.isFull : Msg → Bool
  | .full .. => true
  | .lost | .malformed | .bare _ => false

/-- The two messages of an exchange on `fd` both bring one. -/
def World.delivers (K : Kernel) (w : World) (fd : Int) : Bool :=
  let (m, w) := w.recvmsg K fd .shadow
  m.isFull && (w.recvmsg K fd .com).1.isFull

/-- An exchange that the call makes with another version delivers both descriptors. -/
def Call.Delivers (K : Kernel) (p : Proc) : Call → Prop
  | .bind _ port =>
    let (comfd, w) := p.world.allot K .com
    K.bindName w port = .inUse → (w.tick.isOpen comfd && K.connect w.tick comfd) = true →
      w.tick.tick.delivers K comfd = true
  | .socket | .accept _ | .close _ | .epollCtl .. | .select .. | .ppoll .. | .epollWait .. => True

instance (K : Kernel) (p : Proc) : (call : Call) → Decidable (call.Delivers K p)
  | .bind .. => inferInstanceAs (Decidable (_ = _ → _ = _ → _ = _))
  | .socket | .accept _ | .close _ | .epollCtl .. | .select .. | .ppoll .. | .epollWait .. => .isTrue trivial

/-- A number that is open, and that no record has for itself: as an internal descriptor, or an inherited shadow. -/
structure Foreign (binds : List DsuSocket) (w : World) (n : Int) : Prop where
  isOpen : w.isOpen n = true
  unwatched : n ∉ watchedOf binds
  shadow : ∀ r ∈ binds, r.shadowfd = n → r.fd = n

namespace Possession

/-- The program passes on only what it has. -/
def Passes (a : Possession) : Call → Prop
  | .bind sockfd _ | .accept sockfd | .close sockfd => a.own sockfd = true
  | .socket | .epollCtl .. | .select .. | .ppoll .. | .epollWait .. => True

instance (a : Possession) : (call : Call) → Decidable (a.Passes call)
  | .bind .. | .accept _ | .close _ => inferInstanceAs (Decidable (_ = true))
  | .socket | .epollCtl .. | .select .. | .ppoll .. | .epollWait .. => .isTrue trivial

/-- The translation to shadow descriptors leads back, and tells the descriptors of the program apart. -/
structure Faithful (a : Possession) : Prop where
  back : ∀ f, a.own f = true → dsuOriginalfd a.proc.binds (dsuShadowfd a.proc.binds f) = f
  apart : ∀ f g, a.own f = true → a.own g = true → f ≠ g → dsuShadowfd a.proc.binds f ≠ dsuShadowfd a.proc.binds g

/-- What the program has, or was started with. -/
def Has (a : Possession) (n : Int) : Prop := a.own n = true ∨ 0 ≤ n ∧ n ≤ 2

/-- The invariant: the records are apart from each other, and from what the program has. -/
structure Sound (a : Possession) : Prop where
  distinct : Distinct a.proc.sockets a.proc.binds a.proc.world
  foreign : ∀ n, a.Has n → Foreign a.proc.binds a.proc.world n
  high : ∀ n, a.own n = true → 2 < n
  positive : ∀ r ∈ a.proc.binds, 0 < r.shadowfd

end Possession

variable {K : Kernel} {p q : Proc} {w w' : World} {binds binds' : List DsuSocket} {n c : Int}

/-! ### The translation -/

/-- Records with one shadow are one record. -/
theorem Distinct.fd_of_shadowfd {sockets : List DsuSocket} (h : Distinct sockets binds w) {r x : DsuSocket}
    (hr : r ∈ binds) (hx : x ∈ binds) (hpos : 0 < r.shadowfd) (he : x.shadowfd = r.shadowfd) : x.fd = r.fd := by
  obtain ⟨pre, post, rfl⟩ := List.append_of_mem hr
  have hother : x ∉ pre ++ post := fun hx =>
    h.not_mem hpos (shadowfd_mem_numbers r) hx (he ▸ shadowfd_mem_numbers x)
  simp only [List.mem_append, List.mem_cons, not_or] at hx hother
  rw [(hx.resolve_left hother.1).resolve_right hother.2]

theorem Possession.Sound.faithful {a : Possession} (h : a.Sound) : a.Faithful := by
  have hback : ∀ f, a.own f = true → dsuOriginalfd a.proc.binds (dsuShadowfd a.proc.binds f) = f := by
    intro f hf
    unfold dsuShadowfd dsuOriginalfd
    cases hfind : dsuSocketsSearchFd a.proc.binds f with
    | some r =>
      obtain ⟨hr, rfl⟩ := mem_of_search_fd hfind
      simp only
      split
      · rename_i x hback
        have hshadow : x.shadowfd = r.shadowfd := by simpa using List.find?_some hback
        exact h.distinct.fd_of_shadowfd hr (List.mem_of_find?_eq_some hback) (h.positive r hr) hshadow
      · rename_i hnone
        exact absurd (List.find?_eq_none.mp hnone r hr) (by simp)
    | none =>
      simp only
      split
      · rename_i x hback
        have hshadow : x.shadowfd = f := by simpa using List.find?_some hback
        have hx := List.mem_of_find?_eq_some hback
        exact (h.foreign f (Or.inl hf)).shadow x hx hshadow
      · rfl
  refine ⟨hback, fun f g hf hg hne he => hne ?_⟩
  rw [← hback f hf, he, hback g hg]

/-! ### Numbers that stay foreign -/

/-- The records have names of the old ones, and watch no more than these. -/
def Shrinks (binds binds' : List DsuSocket) : Prop :=
  ∀ r' ∈ binds', ∃ r ∈ binds, r'.names = r.names ∧ ∀ d ∈ r'.watched, d ∈ r.watched

theorem Shrinks.refl (binds : List DsuSocket) : Shrinks binds binds := fun r hr => ⟨r, hr, rfl, fun _ hd => hd⟩

theorem shrinks_update (test : DsuSocket → Bool) {f : DsuSocket → DsuSocket} (hnames : ∀ r, (f r).names = r.names)
    (hwatched : ∀ r, ∀ d ∈ (f r).watched, d ∈ r.watched) (binds : List DsuSocket) :
    Shrinks binds (dsuSocketsUpdate test f binds) := by
  intro r' hr'
  cases hfind : binds.find? test with
  | none =>
    rw [dsuSocketsUpdate_of_find_none hfind] at hr'
    exact Shrinks.refl binds r' hr'
  | some r =>
    obtain ⟨pre, post, hold, hnew⟩ := dsuSocketsUpdate_of_find hfind f
    simp only [hnew, List.mem_append, List.mem_cons] at hr'
    rcases hr' with hr' | rfl | hr'
    · exact Shrinks.refl binds r' (by simp [hold, hr'])
    · exact ⟨r, by simp [hold], hnames r, hwatched r⟩
    · exact Shrinks.refl binds r' (by simp [hold, hr'])

/-- No record gets the number, and it stays open. -/
theorem Foreign.mono (h : Foreign binds w n) (hopen : w'.isOpen n = true)
    (hbinds : Shrinks binds binds') : Foreign binds' w' n where
  isOpen := hopen
  unwatched hmem := by
    obtain ⟨r', hr', hmem⟩ := List.mem_flatMap.mp hmem
    obtain ⟨r, hr, -, hwatched⟩ := hbinds r' hr'
    exact h.unwatched (mem_watchedOf hr (hwatched n hmem))
  shadow r' hr' he := by
    obtain ⟨r, hr, hnames, -⟩ := hbinds r' hr'
    obtain ⟨hfd, hshadow⟩ := Prod.ext_iff.mp hnames
    exact hfd.trans (h.shadow r hr (hshadow.symm.trans he))

theorem Foreign.event (h : Foreign p.binds p.world n) (he : p.Evolves q) : Foreign q.binds q.world n := by
  have hroom : 1 + (watchedOf p.binds).count n ≤ p.world.openings n := by
    rw [List.count_eq_zero.mpr h.unwatched]
    simp [World.openings, h.isOpen]
  have hroom : 1 + (watchedOf q.binds).count n ≤ q.world.openings n := he.changes.watchedOf_count hroom
  have hone := q.world.openings_le n
  refine ⟨World.isOpen_of_openings (by omega), List.count_eq_zero.mp (by omega), fun r' hr' hshadow => ?_⟩
  have hmem : r'.names ∈ p.binds.map DsuSocket.names := he.names ▸ List.mem_map_of_mem hr'
  obtain ⟨r, hr, hnames⟩ := List.mem_map.mp hmem
  obtain ⟨hfd, hshadow'⟩ := Prod.ext_iff.mp hnames
  exact hfd.symm.trans (h.shadow r hr (hshadow'.trans hshadow))

/-! ### New numbers -/

/-- A number that a new descriptor can have. -/
def Free (w : World) (n : Int) : Prop := 0 ≤ n ∧ w.isOpen n = false

theorem World.Opens.free_number {kind : Kind} (h : w.Opens c kind w') : Free w c :=
  ⟨h.nonneg, by simp [World.isOpen, h.free]⟩

theorem World.Opens.isOpen_mono {kind : Kind} (h : w.Opens c kind w') (hn : w.isOpen n = true) : w'.isOpen n = true := by
  unfold World.isOpen at hn ⊢
  simp only [h.fdt]
  split
  · rfl
  · exact hn

theorem World.Opens.isOpen_self {kind : Kind} (h : w.Opens c kind w') : w'.isOpen c = true := by
  unfold World.isOpen
  simp only [h.fdt, if_true, Option.isSome_some]

theorem Free.ne (hc : Free w c) (hn : w.isOpen n = true) : c ≠ n := by
  rintro rfl
  rw [hc.2] at hn
  cases hn

namespace Possession.Sound

variable {a : Possession} (h : a.Sound)
include h

/-- The numbers from 0 to 2 are not given to a new descriptor. -/
theorem lt_of_free (hc : Free a.proc.world c) : 2 < c := by
  by_contra hle
  have hopen := (h.foreign c (Or.inr ⟨hc.1, by omega⟩)).isOpen
  rw [hc.2] at hopen
  cases hopen

theorem foreign_of_opens {kind : Kind} (hw : a.proc.world.Opens c kind w') : Foreign a.proc.binds w' c := by
  have hpos : 2 < c := h.lt_of_free hw.free_number
  have hnot : c ∉ a.proc.binds.flatMap DsuSocket.numbers := by
    have hcount := h.distinct.count c (by omega)
    have hzero : a.proc.world.openings c = 0 := if_neg (by simp [hw.free_number.2])
    rw [hzero] at hcount
    exact fun hmem => List.count_eq_zero.mp (Nat.le_zero.mp hcount) (List.mem_append_right _ hmem)
  refine ⟨hw.isOpen_self, fun hmem => hnot ?_, fun r hr he => absurd ?_ hnot⟩
  · obtain ⟨r, hr, hmem⟩ := List.mem_flatMap.mp hmem
    exact List.mem_flatMap.mpr ⟨r, hr, by simp [DsuSocket.numbers, hmem]⟩
  · exact List.mem_flatMap.mpr ⟨r, hr, he ▸ shadowfd_mem_numbers r⟩

end Possession.Sound

theorem dsuReadFd_opens {fd : Int} {kind : Kind} (hm : (w.recvmsg K fd kind).1.isFull = true) (recvfd port : Int) :
    w.Opens (dsuReadFd K w fd recvfd port kind).1 kind (dsuReadFd K w fd recvfd port kind).2.2 := by
  unfold dsuReadFd
  rcases w.recvmsg_cases K fd kind with ⟨hnone, -⟩ | ⟨c, port', hc, hw⟩
  · cases hmsg : (w.recvmsg K fd kind).1 with
    | full n port => exact absurd hmsg (hnone n port)
    | lost | malformed | bare =>
      rw [hmsg] at hm
      cases hm
  · simp only [hc]
    exact hw

/-- An exchange that delivers both descriptors receives them under numbers that were free. -/
theorem dsuInheritFd_delivers (s : DsuSocket) (w : World)
    (hd : (w.isOpen s.comfd && K.connect w s.comfd) = true → w.tick.delivers K s.comfd = true) :
    (dsuInheritFd K s w).2.1.fd = s.fd ∧ (dsuInheritFd K s w).2.1.comfds = s.comfds ∧
    ((dsuInheritFd K s w).2.1.shadowfd = s.shadowfd ∧ (dsuInheritFd K s w).2.1.comfd = s.comfd ∨
      Free w (dsuInheritFd K s w).2.1.shadowfd ∧ Free w (dsuInheritFd K s w).2.1.comfd) := by
  rw [dsuInheritFd_eq]
  split
  · rename_i hconnect
    obtain ⟨hfull, hfull'⟩ := Bool.and_eq_true_iff.mp (hd hconnect)
    refine ⟨rfl, rfl, Or.inr ?_⟩
    simp only
    have hfirst := dsuReadFd_opens hfull s.shadowfd 0
    have hworld := dsuReadFd_world K w.tick s.comfd s.shadowfd 0 .shadow
    generalize dsuReadFd K w.tick s.comfd s.shadowfd 0 .shadow = b at hfirst hworld ⊢
    have hsecond := dsuReadFd_opens (hworld ▸ hfull') 0 b.2.1
    refine ⟨hfirst.free_number, hsecond.free_number.1, ?_⟩
    by_contra hold
    exact hsecond.free_number.ne (hfirst.isOpen_mono (Bool.not_eq_false _ ▸ hold)) rfl
  · exact ⟨rfl, rfl, Or.inl ⟨rfl, rfl⟩⟩

/-- The record that `bind` moves has numbers of its own that were free, or the socket as its shadow. -/
theorem bind_delivers (sockfd : Int) (port : Nat) (hK : Call.Delivers K p (.bind sockfd port))
    (h : Distinct p.sockets p.binds p.world) :
    (bind K p sockfd port).2 = p ∨ ∃ s', (bind K p sockfd port).2.binds = p.binds ++ [s'] ∧ 0 < s'.fd ∧
      s'.watched = [s'.comfd] ∧ (s'.shadowfd = s'.fd ∨ Free p.world s'.shadowfd) ∧
      (s'.comfd = -1 ∨ Free p.world s'.comfd) := by
  rcases bind_cases K p sockfd port with ⟨-, hq⟩ | ⟨s, hs, hq⟩
  · exact Or.inl hq
  · obtain ⟨hmem, -⟩ := mem_of_search_fd hs
    obtain ⟨hshadow, hcomfds⟩ := h.unbound s hmem
    have hpos := h.positive s (List.mem_append_left _ hmem)
    have hallot : ((p.world.allot K .com).1 = -1 ∨ Free p.world (p.world.allot K .com).1) ∧
        ∀ n, Free (p.world.allot K .com).2.tick n → Free p.world n := by
      rcases p.world.allot_cases K .com with ⟨hc, hw⟩ | ⟨c, hc, hw⟩
      · refine ⟨Or.inl hc, fun n hn => ⟨hn.1, ?_⟩⟩
        rw [← World.isOpen_congr hw.fdt]
        exact hn.2
      · rw [hc]
        refine ⟨Or.inr hw.free_number, fun n hn => ⟨hn.1, ?_⟩⟩
        by_contra hold
        exact hn.ne (hw.isOpen_mono (Bool.not_eq_false _ ▸ hold)) rfl
    obtain ⟨hcom, hfree⟩ := hallot
    right
    rcases hq with ⟨-, hq⟩ | ⟨huse, hq⟩
    · obtain ⟨s', hbinds, hfd', hshadow', -, hcomfd', -, hcomfds', hmon, -⟩ := hq.binds
      refine ⟨s', hbinds, hfd' ▸ hpos, ?_, Or.inl ?_, hcomfd' ▸ hcom⟩
      · simp [DsuSocket.watched, hmon, hcomfds', hcomfds]
      · rw [hshadow', hfd', hshadow]
    · obtain ⟨s', hbinds, hfd', hshadow', -, hcomfd', -, hcomfds', hmon, -⟩ := hq.binds
      obtain ⟨hfd, hcomfds'', hcases⟩ := dsuInheritFd_delivers
        { s with port := port, comfd := (p.world.allot K .com).1 } (p.world.allot K .com).2.tick
        (hK ((dsuMonitorInit_inUse K).mp huse).2)
      refine ⟨s', hbinds, ?_, ?_, ?_, ?_⟩
      · rw [hfd', hfd]
        exact hpos
      · have hnone : s'.comfds = [] := hcomfds'.trans (hcomfds''.trans hcomfds)
        simp [DsuSocket.watched, hmon, hnone]
      · rw [hshadow', hfd', hfd]
        rcases hcases with ⟨hsame, -⟩ | ⟨hnew, -⟩
        · exact Or.inl (hsame.trans hshadow)
        · exact Or.inr (hfree _ hnew)
      · rw [hcomfd']
        rcases hcases with ⟨-, hsame⟩ | ⟨-, hnew⟩
        · rw [hsame]
          exact hcom
        · exact Or.inr (hfree _ hnew)

/-! ### Runs -/

theorem close_shrinks (p : Proc) (c : Int) : Shrinks p.binds (close K p c).binds := by
  unfold close
  split
  · exact .refl _
  split
  · exact .refl _
  split
  · exact fun r' hr' => Shrinks.refl _ r' (List.mem_of_mem_eraseP hr')
  split
  · refine shrinks_update _ ?_ (fun r d hd => ?_) _
    · exact fun _ => rfl
    · simp only [DsuSocket.watched, Bool.false_eq_true, if_false, List.nil_append] at hd
      exact List.mem_append_right _ hd
  split
  · refine shrinks_update _ ?_ (fun r d hd => ?_) _
    · exact fun _ => rfl
    · rcases List.mem_append.mp hd with hd | hd
      · exact List.mem_append_left _ hd
      · exact List.mem_append_right _ (List.mem_of_mem_erase hd)
  split
  · refine shrinks_update _ ?_ ?_ _
    · exact fun _ => rfl
    · exact fun _ _ hd => hd
  · exact .refl _

namespace Possession.Sound

variable {a : Possession} (h : a.Sound)
include h

/-- What the program has stays its own, and gains at most the number of a new descriptor. -/
theorem of_opens {own : Int → Bool} {kind : Kind} (hw : a.proc.world.Opens c kind w')
    (hd : Distinct q.sockets q.binds w') (hq : q.world = w')
    (hbinds : Shrinks a.proc.binds q.binds)
    (hown : ∀ n, own n = true → a.own n = true ∨ n = c) : Sound { proc := q, own := own } where
  distinct := hq ▸ hd
  foreign n hn := by
    have hcases : a.Has n ∨ n = c := by
      rcases hn with hn | hn
      · exact (hown n hn).imp_left Or.inl
      · exact Or.inl (Or.inr hn)
    rw [hq]
    rcases hcases with hn | rfl
    · exact (h.foreign n hn).mono (hw.isOpen_mono (h.foreign n hn).isOpen) hbinds
    · exact (h.foreign_of_opens hw).mono hw.isOpen_self hbinds
  high n hn := by
    rcases hown n hn with hn | rfl
    · exact h.high n hn
    · exact h.lt_of_free hw.free_number
  positive r' hr' := by
    obtain ⟨r, hr, hnames, -⟩ := hbinds r' hr'
    have hshadow : r'.shadowfd = r.shadowfd := (Prod.ext_iff.mp hnames).2
    exact hshadow ▸ h.positive r hr

/-- No number is opened. -/
theorem of_kept {own : Int → Bool} (hd : Distinct q.sockets q.binds q.world)
    (hf : ∀ n, a.Has n → (own n = true ∨ n ≤ 2) → Foreign q.binds q.world n) (hown : ∀ n, own n = true → a.own n = true)
    (hbinds : ∀ r' ∈ q.binds, ∃ r ∈ a.proc.binds, r'.names = r.names) : Sound { proc := q, own := own } where
  distinct := hd
  foreign n hn := by
    rcases hn with hn | hn
    · exact hf n (Or.inl (hown n hn)) (Or.inl hn)
    · exact hf n (Or.inr hn) (Or.inr hn.2)
  high n hn := h.high n (hown n hn)
  positive r' hr' := by
    obtain ⟨r, hr, hnames⟩ := hbinds r' hr'
    have hshadow : r'.shadowfd = r.shadowfd := (Prod.ext_iff.mp hnames).2
    exact hshadow ▸ h.positive r hr

theorem event (he : a.proc.Evolves q) : Sound { proc := q, own := a.own } := by
  refine h.of_kept ?_ (fun n hn _ => (h.foreign n hn).event he) (fun _ hn => hn) fun r' hr' => ?_
  · rw [he.sockets]
    exact he.changes.distinct h.distinct
  · have hmem : r'.names ∈ a.proc.binds.map DsuSocket.names := he.names ▸ List.mem_map_of_mem hr'
    obtain ⟨r, hr, hnames⟩ := List.mem_map.mp hmem
    exact ⟨r, hr, hnames.symm⟩

/-- The records get no other name and watch nothing new. -/
theorem quiet (hd : Distinct q.sockets q.binds q.world) (hopen : ∀ n, q.world.isOpen n = a.proc.world.isOpen n)
    (hbinds : Shrinks a.proc.binds q.binds) : Sound { proc := q, own := a.own } :=
  h.of_kept hd (fun n hn _ => (h.foreign n hn).mono ((hopen n).trans (h.foreign n hn).isOpen) hbinds) (fun _ hn => hn)
    fun r' hr' => (hbinds r' hr').imp fun _ hr => ⟨hr.1, hr.2.1⟩

theorem socket : Sound { proc := (OpenDSU.socket K a.proc).2, own := a.after K .socket } := by
  have hd := socket_distinct (K := K) h.distinct
  rcases a.proc.world.allot_cases K .user with ⟨hfd, hw⟩ | ⟨fd, hfd, hw⟩
  · have hsocket : OpenDSU.socket K a.proc = (-1, { a.proc with world := (a.proc.world.allot K .user).2 }) := by
      simp [OpenDSU.socket, hfd]
    simp only [Possession.after, hsocket, if_true] at hd ⊢
    exact h.quiet hd (World.isOpen_congr hw.fdt) (.refl _)
  · have hpos : 2 < fd := h.lt_of_free hw.free_number
    have hsocket : OpenDSU.socket K a.proc = (fd, { a.proc with
        world := (a.proc.world.allot K .user).2
        sockets := a.proc.sockets ++ [{ dsuSocketListInit with shadowfd := fd, fd := fd }] }) := by
      simp [OpenDSU.socket, hfd, (by omega : 0 < fd), dsuSocketsAdd]
    have hne : fd ≠ -1 := by omega
    simp only [Possession.after, hsocket, if_neg hne] at hd ⊢
    refine h.of_opens hw hd rfl (.refl _) fun n hn => ?_
    by_cases hnc : n = fd
    · exact Or.inr hnc
    · rw [Function.update_of_ne hnc] at hn
      exact Or.inl hn

theorem accept (sockfd : Int) :
    Sound { proc := (OpenDSU.accept K a.proc sockfd).2, own := a.after K (.accept sockfd) } := by
  have hd := accept_distinct (K := K) sockfd h.distinct
  have hcases := fun kind => a.proc.world.accept_cases K (dsuShadowfd a.proc.binds sockfd) kind
  simp only [Possession.after]
  unfold OpenDSU.accept at hd ⊢
  simp only at hd ⊢
  generalize hsession : a.proc.world.accept K (dsuShadowfd a.proc.binds sockfd) _ = session at hd ⊢
  rcases hsession ▸ hcases _ with ⟨hfd, hw⟩ | ⟨c, hfd, hw⟩
  · simp only [hfd, if_true] at hd ⊢
    exact h.quiet hd (World.isOpen_congr hw.fdt) (.refl _)
  · have hne : c ≠ -1 := by
      have := hw.nonneg
      omega
    simp only [hfd, if_neg hne] at hd ⊢
    have hbinds := shrinks_update (·.fd == sockfd) (f := (dsuSocketAddFds · c .nonInternal)) (fun _ => rfl)
      (fun _ _ hd => hd) a.proc.binds
    refine h.of_opens hw hd rfl hbinds fun n hn => ?_
    by_cases hnc : n = c
    · exact Or.inr hnc
    · rw [Function.update_of_ne hnc] at hn
      exact Or.inl hn

theorem close (hc : a.own c = true) :
    Sound { proc := OpenDSU.close K a.proc c, own := a.after K (.close c) } := by
  have hforeign := h.foreign c (Or.inl hc)
  have hhigh := h.high c hc
  have hspares : Call.Spares a.proc (.close c) :=
    ⟨fun hstd => by omega, fun r hr he => (hforeign.shadow r hr he.symm).symm⟩
  have hopen : ∀ n, n ≠ c → (OpenDSU.close K a.proc c).world.isOpen n = a.proc.world.isOpen n := by
    intro n hn
    have hworld : (OpenDSU.close K a.proc c).world = a.proc.world.close K c := by
      unfold OpenDSU.close
      repeat' split
      all_goals rfl
    unfold World.isOpen
    rw [hworld, (World.closes_close _ K c).fdt]
    simp [hn]
  refine h.of_kept (close_distinct hspares h.distinct) (fun n hn hown => ?_) (fun n hn => ?_) fun r' hr' => ?_
  · have hne : n ≠ c := by
      rintro rfl
      simp only [Possession.after, Function.update_self, Bool.false_eq_true, false_or] at hown
      omega
    exact (h.foreign n hn).mono ((hopen n hne).trans (h.foreign n hn).isOpen) (close_shrinks a.proc c)
  · by_cases hnc : n = c
    · simp [Possession.after, hnc] at hn
    · simpa [Possession.after, hnc] using hn
  · exact (close_shrinks a.proc c r' hr').imp fun _ hr => ⟨hr.1, hr.2.1⟩

theorem bind (sockfd : Int) (port : Nat) (hK : Call.Delivers K a.proc (.bind sockfd port)) :
    Sound { proc := (OpenDSU.bind K a.proc sockfd port).2, own := a.own } := by
  have hd := bind_distinct (K := K) sockfd port h.distinct
  have hmono := fun n hn => bind_openings (K := K) (p := a.proc) (n := n) sockfd port hn
  rcases bind_delivers sockfd port hK h.distinct with hq | ⟨s', hbinds, hpos, hwatched, hshadow, hcomfd⟩
  · rw [hq]
    exact h
  have hzero : Free a.proc.world s'.shadowfd → 0 < s'.shadowfd := fun hfree => by
    have := h.lt_of_free hfree
    omega
  refine ⟨hd, fun n hn => ?_, h.high, fun r hr => ?_⟩
  · have hforeign := h.foreign n hn
    have hnonneg : 0 ≤ n := by
      rcases hn with hn | hn
      · have := h.high n hn
        omega
      · exact hn.1
    refine ⟨?_, fun hmem => ?_, fun r hr he => ?_⟩
    · have hone : a.proc.world.openings n = 1 := if_pos hforeign.isOpen
      have hle : 1 ≤ (OpenDSU.bind K a.proc sockfd port).2.world.openings n := hone ▸ hmono n hnonneg
      exact World.isOpen_of_openings hle
    · simp only [hbinds, watchedOf, List.flatMap_append, List.flatMap_singleton, hwatched, List.mem_append,
        List.mem_singleton] at hmem
      rcases hmem with hmem | rfl
      · exact hforeign.unwatched hmem
      · rcases hcomfd with hneg | hfree
        · omega
        · exact hfree.ne hforeign.isOpen rfl
    · simp only [hbinds, List.mem_append, List.mem_singleton] at hr
      rcases hr with hr | rfl
      · exact hforeign.shadow r hr he
      · rcases hshadow with hsame | hfree
        · exact hsame ▸ he
        · exact absurd he (hfree.ne hforeign.isOpen)
  · simp only [hbinds, List.mem_append, List.mem_singleton] at hr
    rcases hr with hr | rfl
    · exact h.positive r hr
    · rcases hshadow with hsame | hfree
      · exact hsame ▸ hpos
      · exact hzero hfree

theorem epollCtl (epfd : Int) (op : EpollOp) (fd : Int) (event : EpollEvent) :
    Sound { proc := (OpenDSU.epollCtl K a.proc epfd op fd event).2, own := a.own } := by
  have hopen := fun d n => World.isOpen_congr (World.epollCtl_fdt a.proc.world K epfd op d event false) n
  refine h.quiet (epollCtl_distinct epfd op fd event h.distinct) (fun n => ?_) ?_ <;> unfold OpenDSU.epollCtl <;> split
  · exact hopen fd n
  · exact hopen _ n
  · exact .refl _
  · refine shrinks_update _ ?_ ?_ _
    · exact fun _ => rfl
    · exact fun _ _ hd => hd

end Possession.Sound

theorem step_sound {a b : Possession} {call : Call} (h : a.Sound) (hp : a.Passes call) (hK : call.Delivers K a.proc)
    (hs : a.step K call = some b) : b.Sound := by
  obtain ⟨q, hq, rfl⟩ := Option.map_eq_some_iff.mp hs
  cases step_takes hq with
  | socket => exact h.socket
  | bind sockfd port => exact h.bind sockfd port hK
  | accept sockfd => exact h.accept sockfd
  | close sockfd => exact h.close hp
  | epollCtl epfd op fd event => exact h.epollCtl epfd op fd event
  | event hcall he =>
    cases call with
    | select | ppoll | epollWait => exact h.event he
    | socket | bind | accept | close | epollCtl => cases hcall

theorem Possession.sound_init {a : Possession} (h : (possessionMachine K).init a) : a.Sound where
  distinct := h.1.distinct
  foreign n hn := by
    have hlow : 0 ≤ n ∧ n ≤ 2 := hn.resolve_left (by simp [h.2.2])
    exact ⟨h.2.1 n hlow.1 hlow.2, by simp [watchedOf, h.1.binds], by simp [h.1.binds]⟩
  high n hn := by simp [h.2.2] at hn
  positive := by simp [h.1.binds]

/-- The translation is a faithful renaming in every state of a run that keeps to its own descriptors. -/
theorem faithful_throughout {a : Possession} (h : (possessionMachine K).init a) {calls : List Call}
    (hc : (possessionMachine K).Steps (fun a call => a.Passes call ∧ call.Delivers K a.proc) a calls) :
    (possessionMachine K).Throughout Possession.Faithful a calls :=
  Machine.Steps.throughout (I := Possession.Sound) (fun _ hs => hs.faithful)
    (fun _ _ _ hs hok hstep => step_sound hs hok.1 hok.2 hstep) (Possession.sound_init h) hc

/-- A kernel with another version on port 8080, which hands over its two descriptors. -/
def heirKernel : Kernel :=
  { soloKernel with
    bindName := fun _ port => if port = 8080 then .inUse else .claimed
    recvmsg := fun w _ => .full w.files 8080 }

/-- A process that has just been loaded, and has obtained nothing yet. -/
def Possession.loaded : Possession where
  proc := .loaded
  own := fun _ => false

theorem faithful_on_heir : ∃ a, (possessionMachine heirKernel).run .loaded
      [.socket, .bind 3 8080, .accept 3, .socket, .bind 8 80, .close 3, .socket] = some a ∧
    a.proc.binds.map DsuSocket.names = [(8, 8)] ∧ a.own 7 = true ∧
    (possessionMachine heirKernel).Throughout Possession.Faithful .loaded
      [.socket, .bind 3 8080, .accept 3, .socket, .bind 8 80, .close 3, .socket] := by
  refine ⟨_, rfl, rfl, rfl, faithful_throughout ⟨Proc.started_loaded, fun n h0 h2 => ?_, rfl⟩ (by decide)⟩
  simp [Possession.loaded, Proc.loaded, World.isOpen, h0, h2]

end OpenDSU
