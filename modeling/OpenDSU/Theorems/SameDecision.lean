import OpenDSU.Theorems.Interest
import OpenDSU.Theorems.PollArray
import OpenDSU.Theorems.SelectDecides

/-! Whether the three event calls decide alike which bound sockets are in the wait. Each pass tries the records in an
order of its own. -/

namespace OpenDSU

variable {K : Kernel} {P : Ports} {held : List Nat} {asked : Finset Int} {p : Proc} {r r' : DsuSocket} {w : World}
  {binds : List DsuSocket}

/-- Without a flag, and with its semaphore not taken meanwhile, a monitored record is tried as it is by itself. -/
theorem tryMonitor_alone (hK : K.Shows P) (hheld : ∀ sem ∈ held, sem ∈ w.held)
    (hfree : P.locks held r = true → r.fdSem ∉ w.held) (hmon : r.monitoring = true) :
    let a := tryMonitor K r false w
    a.1 = .refused ∧ P.admits held r = false ∧ P.locks held r = false ∧ a.2.2.held = w.held ∨
      a.1 = .free ∧ P.admits held r = true ∧ P.locks held r = false ∧ a.2.2.held = w.held ∨
      a.1 = .locked ∧ P.admits held r = true ∧ P.locks held r = true ∧ a.2.2.held = r.fdSem :: w.held := by
  obtain ⟨haccess, -, hnext⟩ := tryMonitor_shown hK r false w
  simp only at haccess hnext ⊢
  rw [hnext, haccess, Bool.false_or]
  unfold Ports.access
  rw [obtains_now hheld]
  simp only [Ports.locks, Ports.admits, hmon, Bool.true_and] at hfree ⊢
  cases htransfer : P.inTransfer r with
  | false => simp
  | true =>
    cases hblocking : r.blocking with
    | false => simp
    | true => cases hobtain : P.obtains held r.fdSem <;> simp_all

/-! ### `ppoll` -/

namespace Ports

variable (P held)

/-- The record after a pass over an array with these descriptors. -/
def mark (ds : List Int) (r : DsuSocket) : DsuSocket :=
  if decide (r.fd ∈ ds) && P.locks held r then { r with locked := true } else r

/-- The descriptor that takes the place of `d` in the array. -/
def translated (binds : List DsuSocket) (d : Int) : Int :=
  match dsuSocketsSearchFd binds d with
  | none => d
  | some r => if P.admits held r then r.shadowfd else -1

end Ports

theorem mark_eq (P : Ports) (held : List Nat) (ds : List Int) (r : DsuSocket) :
    P.mark held ds r = r ∨ P.mark held ds r = { r with locked := true } := by
  unfold Ports.mark
  split
  · exact Or.inr rfl
  · exact Or.inl rfl

@[simp] theorem mark_fd (ds : List Int) (r : DsuSocket) : (P.mark held ds r).fd = r.fd := by
  rcases mark_eq P held ds r with h | h <;> rw [h]

@[simp] theorem mark_fdSem (ds : List Int) (r : DsuSocket) : (P.mark held ds r).fdSem = r.fdSem := by
  rcases mark_eq P held ds r with h | h <;> rw [h]

@[simp] theorem locks_mark (ds : List Int) (r : DsuSocket) : P.locks held (P.mark held ds r) = P.locks held r := by
  rcases mark_eq P held ds r with h | h <;> rw [h]; rfl

theorem translated_mark (ds : List Int) (binds : List DsuSocket) (d : Int) :
    P.translated held (binds.map (P.mark held ds)) d = P.translated held binds d := by
  have hfind : dsuSocketsSearchFd (binds.map (P.mark held ds)) d =
      (dsuSocketsSearchFd binds d).map (P.mark held ds) := by
    unfold dsuSocketsSearchFd
    rw [List.find?_map]
    congr 2
    funext r
    simp
  unfold Ports.translated
  rw [hfind]
  cases dsuSocketsSearchFd binds d with
  | none => rfl
  | some r =>
    simp only [Option.map_some]
    rcases mark_eq P held ds r with h | h <;> rw [h]
    rfl

theorem mark_mark (d : Int) (ds : List Int) (r : DsuSocket) :
    P.mark held ds (P.mark held [d] r) = P.mark held (d :: ds) r := by
  unfold Ports.mark
  by_cases hd : r.fd = d
  · by_cases hlocks : P.locks held r = true
    · simp [hd, hlocks]
    · simp [hlocks]
  · simp [hd]

/-- Only the record of the socket is written to. -/
theorem dsuSocketsUpdate_eq_map {d : Int} {l : List DsuSocket} (h : (l.map DsuSocket.fd).Nodup)
    (f : DsuSocket → DsuSocket) : dsuSocketsUpdate (·.fd == d) f l = l.map fun r => if r.fd = d then f r else r := by
  induction l with
  | nil => rfl
  | cons r l ih =>
    obtain ⟨hnot, hl⟩ := List.nodup_cons.mp h
    unfold dsuSocketsUpdate
    by_cases hd : r.fd = d
    · have hrest : l.map (fun r => if r.fd = d then f r else r) = l := by
        refine (List.map_congr_left fun x hx => if_neg fun he => hnot ?_).trans (List.map_id' l)
        rw [hd, ← he]
        exact List.mem_map_of_mem hx
      simp [hd, hrest]
    · simp [hd, ih hl]

theorem map_mark_of_locks {d : Int} (hnone : ∀ x ∈ binds, x.fd = d → P.locks held x = false) :
    binds.map (P.mark held [d]) = binds := by
  refine (List.map_congr_left fun x hx => if_neg fun h => ?_).trans (List.map_id' binds)
  simp only [List.mem_singleton, Bool.and_eq_true, decide_eq_true_eq] at h
  rw [hnone x hx h.1] at h
  cases h.2

section
variable {d : Int} (hnodup : (binds.map DsuSocket.fd).Nodup) (hsearch : dsuSocketsSearchFd binds d = some r)
include hnodup hsearch

/-- The search finds the only record of the socket. -/
theorem eq_of_search_fd {x : DsuSocket} (hx : x ∈ binds) (hd : x.fd = d) : x = r := by
  obtain ⟨hr, hfd⟩ := mem_of_search_fd hsearch
  exact List.inj_on_of_nodup_map hnodup hx hr (hd.trans hfd.symm)

theorem locks_search_iff (sem : Nat) :
    (∃ x ∈ binds, x.fd = d ∧ P.locks held x = true ∧ x.fdSem = sem) ↔ P.locks held r = true ∧ r.fdSem = sem := by
  obtain ⟨hr, hfd⟩ := mem_of_search_fd hsearch
  constructor
  · rintro ⟨x, hx, hd, h⟩
    rw [eq_of_search_fd hnodup hsearch hx hd] at h
    exact h
  · exact fun h => ⟨r, hr, hfd, h⟩

theorem map_mark_search : binds.map (P.mark held [d]) =
    if P.locks held r then dsuSocketsUpdate (·.fd == d) ({ · with locked := true }) binds else binds := by
  split
  · rename_i hlock
    rw [dsuSocketsUpdate_eq_map hnodup]
    refine List.map_congr_left fun x hx => ?_
    unfold Ports.mark
    by_cases hd : x.fd = d
    · rw [eq_of_search_fd hnodup hsearch hx hd]
      simp [(mem_of_search_fd hsearch).2, hlock]
    · simp [hd]
  · rename_i hnone
    refine map_mark_of_locks fun x hx hd => ?_
    rw [eq_of_search_fd hnodup hsearch hx hd]
    exact Bool.eq_false_iff.mpr hnone

end

/-- What the pass of `ppoll` makes of one entry. -/
theorem dsuPrePollEntry_shown (hK : K.Shows P) (e : PollFd) (hnodup : (binds.map DsuSocket.fd).Nodup)
    (hheld : ∀ sem ∈ held, sem ∈ w.held)
    (hfree : ∀ r ∈ binds, r.fd = e.fd → P.locks held r = true → r.fdSem ∉ w.held) :
    let q := dsuPrePollEntry K e (binds, w)
    q.1.fd = P.translated held binds e.fd ∧ q.2.1 = binds.map (P.mark held [e.fd]) ∧
      ∀ sem, sem ∈ q.2.2.held ↔ sem ∈ w.held ∨ ∃ r ∈ binds, r.fd = e.fd ∧ P.locks held r = true ∧ r.fdSem = sem := by
  unfold dsuPrePollEntry Ports.translated
  simp only
  cases hsearch : dsuSocketsSearchFd binds e.fd with
  | none =>
    have hne : ∀ x ∈ binds, x.fd ≠ e.fd := fun x hx => fd_ne_of_search_none hsearch x hx
    refine ⟨rfl, (map_mark_of_locks fun x hx he => absurd he (hne x hx)).symm, fun sem => ⟨Or.inl, ?_⟩⟩
    rintro (h | ⟨x, hx, he, -⟩)
    · exact h
    · exact absurd he (hne x hx)
  | some r =>
    obtain ⟨hr, hfd⟩ := mem_of_search_fd hsearch
    simp only [locks_search_iff hnodup hsearch, map_mark_search hnodup hsearch]
    by_cases hmon : r.monitoring = true
    · rw [if_pos hmon]
      rcases tryMonitor_alone hK hheld (hfree r hr hfd) hmon with
        ⟨haccess, hout, hnone, hnext⟩ | ⟨haccess, hin, hnone, hnext⟩ | ⟨haccess, hin, hlock, hnext⟩
      · simp [haccess, hout, hnone, hnext]
      · simp [haccess, hin, hnone, hnext]
      · simp [haccess, hin, hlock, hnext, eq_comm, or_comm]
    · have hout : P.admits held r = false := by simp [Ports.admits, hmon]
      have hnone : P.locks held r = false := by simp [Ports.locks, hmon]
      simp [hmon, hout, hnone]

/-- The records can be locked in the order of the array. -/
structure Lockable (P : Ports) (held now : List Nat) (ds : List Int) (binds : List DsuSocket) : Prop where
  nodup : (binds.map DsuSocket.fd).Nodup
  before : ∀ sem ∈ held, sem ∈ now
  once : ∀ r ∈ binds, ds.count r.fd ≤ 1
  free : ∀ r ∈ binds, r.fd ∈ ds → P.locks held r = true → r.fdSem ∉ now
  apart : ∀ s ∈ binds, ∀ r ∈ binds, s.fd ∈ ds → r.fd ∈ ds → P.locks held s = true → P.locks held r = true →
    s.fdSem = r.fdSem → s.fd = r.fd

/-- Whatever the entry for `d` has locked, the others can be locked. -/
theorem Lockable.next {now now' : List Nat} {d : Int} {ds : List Int} (h : Lockable P held now (d :: ds) binds)
    (hnow : ∀ sem, sem ∈ now' ↔
      sem ∈ now ∨ ∃ r ∈ binds, r.fd = d ∧ P.locks held r = true ∧ r.fdSem = sem) :
    Lockable P held now' ds (binds.map (P.mark held [d])) where
  nodup := by
    rw [List.map_map]
    have hfd : DsuSocket.fd ∘ P.mark held [d] = DsuSocket.fd := by
      funext r
      exact mark_fd _ _
    rw [hfd]
    exact h.nodup
  before sem hsem := (hnow sem).mpr (Or.inl (h.before sem hsem))
  once := by
    simp only [List.forall_mem_map, mark_fd]
    exact fun r hr => (List.count_le_count_cons).trans (h.once r hr)
  free := by
    simp only [List.forall_mem_map, mark_fd, locks_mark, mark_fdSem]
    intro r hr hds hlock hmem
    rcases (hnow _).mp hmem with hmem | ⟨s, hs, hd, hlocks, he⟩
    · exact h.free r hr (List.mem_cons_of_mem _ hds) hlock hmem
    · have hsame : s.fd = r.fd := h.apart s hs r hr (hd ▸ List.mem_cons_self) (List.mem_cons_of_mem _ hds) hlocks hlock he
      have hcount := h.once r hr
      rw [← hsame, hd, List.count_cons_self] at hcount
      have hpos := List.count_pos_iff.mpr hds
      rw [← hsame, hd] at hpos
      omega
  apart := by
    simp only [List.forall_mem_map, mark_fd, locks_mark, mark_fdSem]
    exact fun s hs r hr hds hds' => h.apart s hs r hr (List.mem_cons_of_mem _ hds) (List.mem_cons_of_mem _ hds')

theorem walk_prePollEntry_shown (hK : K.Shows P) (fds : List PollFd)
    (h : Lockable P held w.held (fds.map PollFd.fd) binds) :
    (walk (dsuPrePollEntry K) fds (binds, w)).1.map PollFd.fd = fds.map (fun e => P.translated held binds e.fd) ∧
      (walk (dsuPrePollEntry K) fds (binds, w)).2.1 = binds.map (P.mark held (fds.map PollFd.fd)) := by
  induction fds generalizing binds w with
  | nil =>
    have hnone : ∀ r, P.mark held ([].map PollFd.fd) r = r := fun r => if_neg (by simp)
    exact ⟨rfl, ((List.map_congr_left fun r _ => hnone r).trans (List.map_id' binds)).symm⟩
  | cons e fds ih =>
    obtain ⟨hfd, hbinds, hheld⟩ := dsuPrePollEntry_shown hK e h.nodup h.before
      fun r hr he => h.free r hr (he ▸ List.mem_cons_self)
    obtain ⟨hrest, hmarked⟩ := ih (hbinds ▸ h.next hheld)
    rw [walk_cons]
    refine ⟨?_, ?_⟩
    · rw [List.map_cons, hfd]
      refine congrArg _ (hrest.trans (List.map_congr_left fun x _ => ?_))
      rw [hbinds, translated_mark]
    · refine hmarked.trans ?_
      rw [hbinds, List.map_map]
      exact List.map_congr_left fun r _ => mark_mark _ _ r

theorem lock_eq {locks : Bool} (h : r.locked = true → locks = true) :
    (if locks then { r with locked := true } else r) = { r with locked := locks } := by
  refine lock_eq_iff.mpr ?_
  cases hlocked : r.locked with
  | false => exact Bool.false_or _
  | true => rw [h hlocked, Bool.or_true]

theorem Separated.nodup (h : Separated binds) : (binds.map DsuSocket.fd).Nodup :=
  List.pairwise_map.mpr (h.imp fun hrx => hrx.1.symm)

theorem Separated.eq_of_shadowfd (h : Separated binds) {x : DsuSocket} (hr : r ∈ binds) (hx : x ∈ binds)
    (he : x.shadowfd = r.shadowfd) : x = r := by
  have hnodup : (binds.map DsuSocket.shadowfd).Nodup := List.pairwise_map.mpr (h.imp fun hrx => hrx.2.2.2.symm)
  exact List.inj_on_of_nodup_map hnodup hx hr he

/-- The locks that `ppoll` takes do not depend on the order of its array. -/
theorem lockable (hsep : Separated binds) {fds : List PollFd} {readfds : Option FdSet}
    (hasks : AsksOnce asked binds readfds fds) (hapart : binds.Pairwise fun s r => ¬P.Contends w.held asked s r) :
    Lockable P w.held w.held (fds.map PollFd.fd) binds := by
  have hmem : ∀ r ∈ binds, r.fd ∈ fds.map PollFd.fd → r.fd ∈ asked := by
    intro r hr hds
    by_contra hnot
    have hcount := hasks.ppoll r hr
    rw [if_neg hnot] at hcount
    exact List.count_eq_zero.mp hcount hds
  have hnodup := hsep.nodup
  refine ⟨hnodup, fun _ h => h, fun r hr => ?_, fun r _ _ hlock hheld => ?_, fun s hs r hr hds hds' hlock hlock' he => ?_⟩
  · rw [hasks.ppoll r hr]
    split <;> omega
  · simp [Ports.locks, Ports.obtains, hheld] at hlock
  · by_contra hne
    have hflip : ∀ {x y}, ¬P.Contends w.held asked x y → ¬P.Contends w.held asked y x :=
      fun h hc => h ⟨hc.2.1, hc.1, hc.2.2.symm⟩
    have hforth : binds.Pairwise fun x y => x.fd ≠ y.fd → ¬P.Contends w.held asked x y :=
      hapart.imp fun {x y} h (_ : x.fd ≠ y.fd) => h
    have hback : binds.Pairwise fun x y => y.fd ≠ x.fd → ¬P.Contends w.held asked y x :=
      hapart.imp fun {x y} h (_ : y.fd ≠ x.fd) => hflip h
    have hall := List.Pairwise.forall_of_forall_of_flip (fun x _ h => absurd rfl h) hforth hback
    exact hall hs hr hne ⟨⟨hmem s hs hds, hlock⟩, ⟨hmem r hr hds', hlock'⟩, he⟩

/-- The array of `ppoll` has what its entries are translated to, but for those that are dropped. -/
theorem dsuPrePoll_fd_iff (hK : K.Shows P) {fds : List PollFd} (h : Lockable P held w.held (fds.map PollFd.fd) binds)
    (d : Int) : (∃ i < (dsuPrePoll K fds binds w).1.1, ((dsuPrePoll K fds binds w).1.2 i).fd = d) ↔
      (∃ e ∈ fds, P.translated held binds e.fd = d) ∧ d ≠ -1 := by
  obtain ⟨hfds, -⟩ := walk_prePollEntry_shown hK fds h
  obtain ⟨hlen, hslice⟩ := dsuCompressFds_spec (walk (dsuPrePollEntry K) fds (binds, w)).1
  rw [← hlen, hfds] at hslice
  have hslot : d ∈ slice (PollFd.fd ∘ (dsuPrePoll K fds binds w).1.2) 0 (dsuPrePoll K fds binds w).1.1 ↔
      ∃ i, 0 ≤ i ∧ i < 0 + (dsuPrePoll K fds binds w).1.1 ∧ ((dsuPrePoll K fds binds w).1.2 i).fd = d := mem_slice
  have hkept : d ∈ slice (PollFd.fd ∘ (dsuPrePoll K fds binds w).1.2) 0 (dsuPrePoll K fds binds w).1.1 ↔
      (∃ e ∈ fds, P.translated held binds e.fd = d) ∧ d ≠ -1 := by
    refine (iff_of_eq (congrArg (d ∈ ·) hslice)).trans ?_
    simp [List.mem_filter]
  rw [← hkept, hslot]
  simp

theorem Separated.search_fd (h : Separated binds) (hr : r ∈ binds) : dsuSocketsSearchFd binds r.fd = some r := by
  cases hsearch : dsuSocketsSearchFd binds r.fd with
  | none => exact absurd rfl (fd_ne_of_search_none hsearch r hr)
  | some x =>
    obtain ⟨hx, hfd⟩ := mem_of_search_fd hsearch
    rw [List.inj_on_of_nodup_map h.nodup hx hr hfd]

/-- A shadow descriptor takes the place of its own socket only. -/
theorem translated_eq_shadowfd_iff (hsep : Separated binds) (hr : r ∈ binds) (hvalid : r.shadowfd ≠ -1) {d : Int}
    (hown : r.shadowfd = d → r.shadowfd = r.fd) :
    P.translated held binds d = r.shadowfd ↔ d = r.fd ∧ P.admits held r = true := by
  unfold Ports.translated
  cases hsearch : dsuSocketsSearchFd binds d with
  | none =>
    have hne : r.fd ≠ d := fd_ne_of_search_none hsearch r hr
    exact ⟨fun he => absurd ((hown he.symm).symm.trans he.symm) hne, fun h => absurd h.1.symm hne⟩
  | some x =>
    obtain ⟨hx, hfd⟩ := mem_of_search_fd hsearch
    constructor
    · intro he
      simp only at he
      split at he
      · rename_i hadmits
        rw [← hsep.eq_of_shadowfd hr hx he]
        exact ⟨hfd.symm, hadmits⟩
      · exact absurd he.symm hvalid
    · rintro ⟨rfl, hadmits⟩
      rw [hsep.search_fd hr, Option.some.injEq] at hsearch
      rw [← hsearch]
      exact if_pos hadmits

/-- The pass of `ppoll` decides by each record. -/
theorem dsuPrePoll_decides (hK : K.Shows P) (hsep : Separated binds) (hvalid : ∀ r ∈ binds, r.shadowfd ≠ -1)
    {fds : List PollFd} {readfds : Option FdSet} (hasks : AsksOnce asked binds readfds fds)
    (hapart : binds.Pairwise fun s r => ¬P.Contends w.held asked s r)
    (hunlocked : ∀ r ∈ binds, r.locked = true → r.fd ∈ asked ∧ P.locks w.held r = true) :
    P.Decides w.held asked binds (dsuPrePoll K fds binds w).2.1
      fun d => ∃ i < (dsuPrePoll K fds binds w).1.1, ((dsuPrePoll K fds binds w).1.2 i).fd = d := by
  have hlockable := lockable hsep hasks hapart
  have hmem : ∀ r ∈ binds, r.fd ∈ fds.map PollFd.fd ↔ r.fd ∈ asked := by
    intro r hr
    rw [← List.count_pos_iff, hasks.ppoll r hr]
    split <;> simp_all
  refine ⟨(walk_prePollEntry_shown hK fds hlockable).2.trans (List.map_congr_left fun r hr => ?_), fun r hr => ?_⟩
  · unfold Ports.mark
    rw [decide_eq_decide.mpr (hmem r hr)]
    exact lock_eq fun hlocked => by simpa using hunlocked r hr hlocked
  · have hne := hvalid r hr
    rw [dsuPrePoll_fd_iff hK hlockable, and_iff_left hne, ← hmem r hr, List.mem_map]
    constructor
    · rintro ⟨e, he, htranslated⟩
      have hown : r.shadowfd = e.fd → r.shadowfd = r.fd := fun h => hasks.fds r hr (h ▸ List.mem_map_of_mem he)
      obtain ⟨hfd, hadmits⟩ := (translated_eq_shadowfd_iff hsep hr hne hown).mp htranslated
      exact ⟨⟨e, he, hfd⟩, hadmits⟩
    · rintro ⟨⟨e, he, hfd⟩, hadmits⟩
      have hown : r.shadowfd = e.fd → r.shadowfd = r.fd := fun h => hasks.fds r hr (h ▸ List.mem_map_of_mem he)
      exact ⟨e, he, (translated_eq_shadowfd_iff hsep hr hne hown).mpr ⟨hfd, hadmits⟩⟩

/-! ### `epoll_wait` -/

theorem plainSet_add_ne_nil (ev : EpollEvent) (l : List EpollEvent) : plainSet .add ev l ≠ [] := by
  unfold plainSet
  simp only
  split
  · simp
  · rename_i h
    simpa using h

section
variable {d : Int} (hK : ∀ w, K.epollCtl w = true) (epfd : Int) (hopen : w.isOpen d = true)
include hK hopen

/-- A descriptor is taken out of an instance. -/
theorem World.epollCtl_del :
    let w' := (w.epollCtl K epfd .del d noEvent false).2
    w'.fdt = w.fdt ∧ w'.held = w.held ∧
      ∀ c, w'.interest epfd c = if c = d then [] else w.interest epfd c := by
  have hsame : w.Same (w.epollCtl K epfd .del d noEvent false).2 :=
    w.same_epollCtl K epfd ⟨by simp, fun h => by cases h⟩
  refine ⟨hsame.fdt, hsame.held, fun c => ?_⟩
  rw [(World.epollCtl_interest hK epfd .del noEvent false hopen).2]
  simp [plainSet]

/-- A descriptor is put into an instance, and is there afterwards. -/
theorem World.epollCtl_add (ev : EpollEvent) :
    let w' := (w.epollCtl K epfd .add d ev false).2
    w'.fdt = w.fdt ∧ w'.held = w.held ∧ w'.interest epfd d ≠ [] ∧
      ∀ c, c ≠ d → w'.interest epfd c = w.interest epfd c := by
  have hsame : w.Same (w.epollCtl K epfd .add d ev false).2 :=
    w.same_epollCtl K epfd ⟨by simp, fun _ h => by cases h⟩
  have hadd := (World.epollCtl_interest hK epfd .add ev false hopen).2
  refine ⟨hsame.fdt, hsame.held, ?_, fun c hc => ?_⟩
  · rw [hadd, if_pos ⟨rfl, rfl⟩]
    exact plainSet_add_ne_nil _ _
  · rw [hadd, if_neg fun h => hc h.2]

end

/-- What the pass of `epoll_wait` makes of one record. -/
theorem dsuEpollShadowfd_shown (hK : K.Shows P) (epfd : Int) (hfd : w.isOpen r.fd = true)
    (hshadowfd : w.isOpen r.shadowfd = true) (hasked : r.ev.events ≠ 0 ↔ r.fd ∈ asked)
    (hheld : ∀ sem ∈ held, sem ∈ w.held) (hfree : r.fd ∈ asked → P.locks held r = true → r.fdSem ∉ w.held) :
    let q := dsuEpollShadowfd K epfd r w
    let locks := decide (r.fd ∈ asked) && P.locks held r
    q.1 = (if locks then { r with locked := true } else r) ∧ q.2.fdt = w.fdt ∧
      q.2.held = (if locks then r.fdSem :: w.held else w.held) ∧
      (q.2.interest epfd r.shadowfd ≠ [] ↔ r.fd ∈ asked ∧ P.admits held r = true ∨
        w.interest epfd r.shadowfd ≠ [] ∧ ¬(r.fd ∈ asked ∧ r.shadowfd = r.fd)) ∧
      ∀ d, d ≠ r.fd → d ≠ r.shadowfd → q.2.interest epfd d = w.interest epfd d := by
  by_cases ha : r.fd ∈ asked
  · have hev : r.ev.events ≠ 0 := hasked.mpr ha
    obtain ⟨hfdt₁, hheld₁, hdel⟩ := World.epollCtl_del hK.epollCtl epfd hfd
    unfold dsuEpollShadowfd
    simp only [hev, ne_eq, not_false_eq_true, if_true, decide_true, Bool.and_true]
    generalize (w.epollCtl K epfd .del r.fd noEvent false).2 = w₁ at hfdt₁ hheld₁ hdel ⊢
    have hleft : w₁.interest epfd r.shadowfd ≠ [] ↔ w.interest epfd r.shadowfd ≠ [] ∧ r.shadowfd ≠ r.fd := by
      rw [hdel]
      split <;> simp_all
    have hother : ∀ d, d ≠ r.fd → w₁.interest epfd d = w.interest epfd d := fun d hd => by rw [hdel, if_neg hd]
    by_cases hmon : r.monitoring = true
    · rw [if_pos hmon]
      have hcases := tryMonitor_alone hK (hheld₁ ▸ hheld) (hheld₁ ▸ hfree ha) hmon
      have hinterest := fun e c => (tryMonitor_interest (K := K) (r := r) (w := w₁) false e c).2
      have hfdt₂ := (tryMonitor_interest (K := K) (r := r) (w := w₁) false 0 0).1.trans hfdt₁
      generalize tryMonitor K r false w₁ = a at hcases hinterest hfdt₂ ⊢
      obtain ⟨access, transfer, w₂⟩ := a
      simp only [hheld₁] at hcases hinterest hfdt₂ ⊢
      have hopen : w₂.isOpen r.shadowfd = true := by
        rw [World.isOpen_congr hfdt₂]
        exact hshadowfd
      obtain ⟨hfdt₃, hheld₃, hin, hadd⟩ := World.epollCtl_add hK.epollCtl epfd hopen
        { r.ev with data := { r.ev.data with fd := r.shadowfd } }
      generalize (w₂.epollCtl K epfd .add r.shadowfd
        { r.ev with data := { r.ev.data with fd := r.shadowfd } } false).2 = w₃ at hfdt₃ hheld₃ hin hadd ⊢
      have hrest : ∀ d, d ≠ r.fd → d ≠ r.shadowfd → w₃.interest epfd d = w.interest epfd d := fun d hd hd' => by
        rw [hadd d hd', hinterest, hother d hd]
      rcases hcases with ⟨rfl, hout, hnone, hnext⟩ | ⟨rfl, hadmits, hnone, hnext⟩ | ⟨rfl, hadmits, hlock, hnext⟩
      · simp only [ha, hout, hnone, hinterest, hleft, decide_true, Bool.and_false, Bool.false_eq_true, if_false, and_false,
          true_and, false_or]
        exact ⟨hfdt₂, hnext, fun d hd _ => hother d hd⟩
      · simp only [ha, hadmits, hnone, decide_true, Bool.and_false, Bool.false_eq_true, if_false, true_and, true_or,
          iff_true]
        exact ⟨hfdt₃.trans hfdt₂, hheld₃.trans hnext, hin, hrest⟩
      · simp only [ha, hadmits, hlock, decide_true, Bool.and_true, if_true, true_and, true_or, iff_true]
        exact ⟨hfdt₃.trans hfdt₂, hheld₃.trans hnext, hin, hrest⟩
    · have hout : P.admits held r = false := by simp [Ports.admits, hmon]
      have hnone : P.locks held r = false := by simp [Ports.locks, hmon]
      rw [if_neg hmon]
      simp only [ha, hout, hnone, hleft, decide_true, Bool.and_false, Bool.false_eq_true, if_false, true_and, and_false,
        false_or]
      exact ⟨hfdt₁, hheld₁, fun d hd _ => hother d hd⟩
  · have hnone : r.ev.events = 0 := by
      by_contra h
      exact ha (hasked.mp h)
    rw [dsuEpollShadowfd_none hnone]
    simp [ha]

theorem walk_epollShadowfd_shown (hK : K.Shows P) (epfd : Int) (l : List DsuSocket) (hsep : Separated l)
    (hopen : ∀ r ∈ l, w.isOpen r.fd = true ∧ w.isOpen r.shadowfd = true)
    (hasked : ∀ r ∈ l, r.ev.events ≠ 0 ↔ r.fd ∈ asked) (hheld : ∀ sem ∈ held, sem ∈ w.held)
    (hfree : ∀ r ∈ l, r.fd ∈ asked → P.locks held r = true → r.fdSem ∉ w.held)
    (hapart : l.Pairwise fun s r => ¬P.Contends held asked s r) :
    let q := walk (dsuEpollShadowfd K epfd) l w
    q.1 = l.map (fun r => if decide (r.fd ∈ asked) && P.locks held r then { r with locked := true } else r) ∧
      (∀ r ∈ l, q.2.interest epfd r.shadowfd ≠ [] ↔ r.fd ∈ asked ∧ P.admits held r = true ∨
        w.interest epfd r.shadowfd ≠ [] ∧ ¬(r.fd ∈ asked ∧ r.shadowfd = r.fd)) ∧
      ∀ d, (∀ r ∈ l, d ≠ r.fd ∧ d ≠ r.shadowfd) → q.2.interest epfd d = w.interest epfd d := by
  induction l generalizing w with
  | nil => exact ⟨rfl, by simp, fun _ _ => rfl⟩
  | cons r l ih =>
    obtain ⟨hhead, hsep⟩ := List.pairwise_cons.mp hsep
    obtain ⟨hcontends, hapart⟩ := List.pairwise_cons.mp hapart
    obtain ⟨⟨hfd, hshadowfd⟩, hopen⟩ := List.forall_mem_cons.mp hopen
    obtain ⟨hr, hasked⟩ := List.forall_mem_cons.mp hasked
    obtain ⟨hrfree, hfree⟩ := List.forall_mem_cons.mp hfree
    obtain ⟨hrecord, hfdt, hnow, hwait, hother⟩ := dsuEpollShadowfd_shown hK epfd hfd hshadowfd hr hheld hrfree
    obtain ⟨hrecords, hwaits, hframe⟩ := ih (w := (dsuEpollShadowfd K epfd r w).2) hsep
      (fun x hx => by
        rw [World.isOpen_congr hfdt, World.isOpen_congr hfdt]
        exact hopen x hx)
      hasked
      (fun sem hsem => by
        rw [hnow]
        split
        · exact List.mem_cons_of_mem _ (hheld sem hsem)
        · exact hheld sem hsem)
      (fun x hx ha hlock hmem => by
        rw [hnow] at hmem
        split at hmem
        · rename_i hlocked
          rcases List.mem_cons.mp hmem with he | hmem
          · exact hcontends x hx ⟨by simpa using hlocked, ⟨ha, hlock⟩, he.symm⟩
          · exact hfree x hx ha hlock hmem
        · exact hfree x hx ha hlock hmem)
      hapart
    refine ⟨?_, List.forall_mem_cons.mpr ⟨?_, fun x hx => ?_⟩, fun d hd => ?_⟩
    · rw [walk_cons, List.map_cons, hrecord, hrecords]
    · rw [walk_cons, hframe r.shadowfd fun x hx => ⟨(hhead x hx).2.2.1.symm, (hhead x hx).2.2.2.symm⟩]
      exact hwait
    · rw [walk_cons, hwaits x hx, hother x.shadowfd (hhead x hx).2.1 (hhead x hx).2.2.2]
    · obtain ⟨⟨hd₁, hd₂⟩, hdl⟩ := List.forall_mem_cons.mp hd
      rw [walk_cons, hframe d hdl, hother d hd₁ hd₂]

/-- The pass of `epoll_wait` decides by each record exactly where the others have left no registration. -/
theorem epollShadowfd_decides_iff (hK : K.Shows P) (epfd : Int) (hsep : Separated binds)
    (hopen : ∀ r ∈ binds, w.isOpen r.fd = true ∧ w.isOpen r.shadowfd = true)
    (hasked : ∀ r ∈ binds, r.ev.events ≠ 0 ↔ r.fd ∈ asked)
    (hapart : binds.Pairwise fun s r => ¬P.Contends w.held asked s r)
    (hunlocked : ∀ r ∈ binds, r.locked = true → r.fd ∈ asked ∧ P.locks w.held r = true) :
    P.Decides w.held asked binds (walk (dsuEpollShadowfd K epfd) binds w).1
        (fun d => (walk (dsuEpollShadowfd K epfd) binds w).2.interest epfd d ≠ []) ↔
      ∀ r ∈ binds, ¬(r.fd ∈ asked ∧ P.admits w.held r = true) →
        w.interest epfd r.shadowfd = [] ∨ r.fd ∈ asked ∧ r.shadowfd = r.fd := by
  obtain ⟨hrecords, hwaits, -⟩ := walk_epollShadowfd_shown hK epfd binds hsep hopen hasked
    (fun _ (h : _ ∈ w.held) => h) (fun r _ _ hlock hheld => by simp [Ports.locks, Ports.obtains, hheld] at hlock) hapart
  have hlocked : (walk (dsuEpollShadowfd K epfd) binds w).1 =
      binds.map fun r => { r with locked := decide (r.fd ∈ asked) && P.locks w.held r } :=
    hrecords.trans (List.map_congr_left fun r hr => lock_eq fun h => by simpa using hunlocked r hr h)
  constructor
  · intro h r hr hnot
    by_contra hleft
    rw [not_or] at hleft
    exact hnot ((h.waits r hr).mp ((hwaits r hr).mpr (Or.inr hleft)))
  · intro h
    refine ⟨hlocked, fun r hr => (hwaits r hr).trans ⟨?_, Or.inl⟩⟩
    rintro (hin | ⟨hleft, hsame⟩)
    · exact hin
    · by_contra hnot
      exact (h r hr hnot).elim hleft hsame

/-! ### The three together -/

/-- The three event calls decide alike exactly where the records do not interfere, if every record has two open descriptors
    that no other has. -/
theorem sameDecision_iff (hK : K.Shows P) (hsep : Separated p.binds)
    (hopen : ∀ r ∈ p.binds, p.world.isOpen r.fd = true ∧ p.world.isOpen r.shadowfd = true)
    (hvalid : ∀ r ∈ p.binds, r.shadowfd ≠ -1) {readfds : Option FdSet} {fds : List PollFd}
    (hasks : AsksOnce asked p.binds readfds fds) (nfds epfd : Int) :
    SameDecision K P asked p nfds readfds fds epfd ↔ Independent P asked p epfd := by
  have hselect : P.Decides p.world.held asked p.binds _ _ ↔ _ :=
    walk_preSelect_decides_iff hK p.binds (p.pass readfds nfds) hsep hasks.select hasks.readfds fun _ h => h
  constructor
  · intro h
    obtain ⟨hall, horder, hapart⟩ := hselect.mp h.select
    have hunlocked := fun r hr => (hall r hr).unlocked
    exact ⟨horder, hapart, hunlocked,
      (epollShadowfd_decides_iff hK epfd hsep hopen hasks.epoll hapart hunlocked).mp h.epoll⟩
  · rintro ⟨horder, hapart, hunlocked, hleft⟩
    refine ⟨hselect.mpr ⟨fun r hr => ⟨fun hflag => ?_, fun hlock hheld => ?_, hunlocked r hr⟩, horder, hapart⟩,
      dsuPrePoll_decides hK hsep hvalid hasks hapart hunlocked,
      (epollShadowfd_decides_iff hK epfd hsep hopen hasks.epoll hapart hunlocked).mpr hleft⟩
    · cases hflag
    · have hnot : r.fdSem ∈ p.world.held := hheld
      simp [Ports.locks, Ports.obtains, hnot] at hlock

/-- A process with a socket on port 1 that is in transfer and a blocking one on port 2 that is not, in this order or
    the other. -/
def twoPorts (first : Bool) : Proc :=
  let r := { dsuSocketListInit with fd := 3, shadowfd := 3, comfd := 5, port := 1, monitoring := true, ev := ⟨1, ⟨3, 0⟩⟩ }
  let x := { r with fd := 4, shadowfd := 4, comfd := 6, port := 2, blocking := true, ev := ⟨1, ⟨4, 0⟩⟩ }
  { Proc.loaded with
    binds := if first then [r, x] else [x, r]
    live := true
    world := (((Proc.loaded.world.install 3 .user).install 4 .user).install 5 .com).install 6 .com }

/-- Port 1 is in transfer, and another process holds the semaphores. -/
def oneInTransfer : Ports where
  status port := { pgid := 0, version := 0, transfer := if port = 1 then 1 else 0 }
  free _ := false

def oneInTransferKernel : Kernel :=
  { soloKernel with status := fun _ => oneInTransfer.status, semTrywait := fun _ => oneInTransfer.free }

theorem oneInTransfer_shown : oneInTransferKernel.Shows oneInTransfer :=
  ⟨fun _ => rfl, fun _ _ => rfl, fun _ _ => rfl, fun _ => rfl⟩

theorem twoPorts_distinct (first : Bool) :
    Distinct (twoPorts first).sockets (twoPorts first).binds (twoPorts first).world := by
  refine Distinct.of_nodup ?_ ?_ ?_ ?_ <;> cases first <;> decide

/-- The program asks for both sockets. -/
def bothPolled : List PollFd := [⟨3, pollin, 0⟩, ⟨4, pollin, 0⟩]

theorem twoPorts_asks (first : Bool) : AsksOnce {3, 4} (twoPorts first).binds (some {3, 4}) bothPolled := by
  refine ⟨?_, ?_, ?_, ?_, ?_⟩ <;> cases first <;> decide

/-- With the blocking socket first in the list, nothing carries over. -/
theorem sameDecision_on_twoPorts :
    SameDecision oneInTransferKernel oneInTransfer {3, 4} (twoPorts false) 5 (some {3, 4}) bothPolled 7 := by
  have hsep : Separated (twoPorts false).binds := (twoPorts_distinct false).separated (by decide)
  refine (sameDecision_iff oneInTransfer_shown hsep (by decide) (by decide) (twoPorts_asks false) 5 7).mpr ⟨?_, ?_, ?_, ?_⟩
  · simp [twoPorts, Ports.Misleads, Ports.inTransfer, oneInTransfer]
  · simp [twoPorts, Ports.Contends, Ports.locks, Ports.obtains, oneInTransfer]
  · decide
  · exact fun r _ _ => Or.inl rfl

/-- With the socket in transfer first, `select` tries the semaphore of the other one, does not get it, and leaves a
    socket out of the wait that `ppoll` waits for. -/
theorem transfer_carried_over :
    oneInTransferKernel.Shows oneInTransfer ∧
    Distinct (twoPorts true).sockets (twoPorts true).binds (twoPorts true).world ∧
    AsksOnce {3, 4} (twoPorts true).binds (some {3, 4}) bothPolled ∧
    ¬SameDecision oneInTransferKernel oneInTransfer {3, 4} (twoPorts true) 5 (some {3, 4}) bothPolled 7 := by
  refine ⟨oneInTransfer_shown, twoPorts_distinct true, twoPorts_asks true, fun h => ?_⟩
  have hwait := (h.select.waits _ (List.mem_cons_of_mem _ List.mem_cons_self)).mpr (by decide)
  exact absurd hwait (by decide)

end OpenDSU
