import OpenDSU.Theorems.Calls

/-! Whether a process that `dsu_termination_detection` lets go may go.

The detection looks at the records that are still in `binds`. An open connection belongs to one of them, or
its record was removed when the program closed the bound socket. -/

namespace OpenDSU

/-- A file that `accept` on a bound socket, or a handler, has opened. -/
def File.isConnection (file : File) : Prop := file.kind = .client ∨ file.kind = .internal

namespace Proc

/-- The process may exit: it has handed over a port, it monitors none, and no connection is open. -/
structure SafeToExit (p : Proc) : Prop where
  handedOver : ∃ r ∈ p.binds, r.version < (p.world.status r.port).version
  unmonitored : ∀ r ∈ p.binds, r.monitoring = false
  idle : ∀ fd file, p.world.fdt fd = some file → ¬file.isConnection

/-- Every open connection is in a list of a record in `binds`, or was when its record was removed. -/
structure Tracked (orphans : List (Int × File)) (binds : List DsuSocket) (w : World) : Prop where
  client : ∀ fd file, w.fdt fd = some file → file.kind = .client →
    (fd, file) ∈ orphans ∨ ∃ r ∈ binds, fd ∈ r.fds
  internal : ∀ fd file, w.fdt fd = some file → file.kind = .internal →
    (fd, file) ∈ orphans ∨ ∃ r ∈ binds, fd ∈ r.comfds
  orphan : ∀ o ∈ orphans, o.2.isConnection

variable {p q : Proc} {orphans : List (Int × File)} {binds : List DsuSocket} {w w' : World} {K : Kernel}

/-! ### Replacing one record -/

theorem exists_mem_replace {α : Type} {P : α → Prop} {pre post : List α} {x y : α} (hxy : P x → P y)
    (h : ∃ z ∈ pre ++ x :: post, P z) : ∃ z ∈ pre ++ y :: post, P z := by
  obtain ⟨z, hz, hp⟩ := h
  simp only [List.mem_append, List.mem_cons] at hz
  rcases hz with hz | rfl | hz
  · exact ⟨z, by simp [hz], hp⟩
  · exact ⟨y, by simp, hxy hp⟩
  · exact ⟨z, by simp [hz], hp⟩

/-- No connection is opened, and the connections that stay open keep their places. -/
theorem Tracked.replace {pre post : List DsuSocket} {r r' : DsuSocket}
    (h : Tracked orphans (pre ++ r :: post) w)
    (hfdt : ∀ fd file, w'.fdt fd = some file → file.isConnection →
      w.fdt fd = some file ∧ (fd ∈ r.fds → fd ∈ r'.fds) ∧ (fd ∈ r.comfds → fd ∈ r'.comfds)) :
    Tracked orphans (pre ++ r' :: post) w' where
  client fd file hf hk := by
    obtain ⟨hf, hfds, -⟩ := hfdt fd file hf (Or.inl hk)
    exact (h.client fd file hf hk).imp_right (exists_mem_replace hfds)
  internal fd file hf hk := by
    obtain ⟨hf, -, hcomfds⟩ := hfdt fd file hf (Or.inr hk)
    exact (h.internal fd file hf hk).imp_right (exists_mem_replace hcomfds)
  orphan := h.orphan

/-- No connection is opened, and no record loses one. -/
theorem Tracked.mono {binds' : List DsuSocket} (h : Tracked orphans binds w)
    (hfdt : ∀ fd file, w'.fdt fd = some file → file.isConnection → w.fdt fd = some file)
    (hbinds : ∀ r ∈ binds, r ∈ binds') : Tracked orphans binds' w' where
  client fd file hf hk :=
    (h.client fd file (hfdt fd file hf (Or.inl hk)) hk).imp_right fun ⟨r, hr, hm⟩ => ⟨r, hbinds r hr, hm⟩
  internal fd file hf hk :=
    (h.internal fd file (hfdt fd file hf (Or.inr hk)) hk).imp_right fun ⟨r, hr, hm⟩ => ⟨r, hbinds r hr, hm⟩
  orphan := h.orphan

/-! ### Event calls -/

theorem Tracked.effect {pre post : List DsuSocket} {r r' : DsuSocket} (he : Effect (r, w) (r', w'))
    (h : Tracked orphans (pre ++ r :: post) w) : Tracked orphans (pre ++ r' :: post) w' := by
  cases he with
  | quiet hr hw =>
    refine h.replace fun fd file hf _ => ?_
    rw [hr.fds, hr.comfds]
    exact ⟨hw.fdt ▸ hf, id, id⟩
  | quit _ hr hw =>
    refine h.replace fun fd file hf _ => ?_
    rw [hw.fdt] at hf
    rw [hr.fds, hr.comfds]
    exact ⟨(Option.ite_none_left_eq_some.mp hf).2, id, id⟩
  | accepted c hr hw =>
    constructor
    · intro fd file hf hk
      rw [hw.fdt] at hf
      simp only at hf
      split at hf
      · cases hf
        cases hk
      · refine (h.client fd file hf hk).imp_right (exists_mem_replace fun hm => ?_)
        rw [hr.fds]
        exact hm
    · intro fd file hf hk
      rw [hw.fdt] at hf
      simp only at hf
      split at hf
      · rename_i hfd
        refine Or.inr ⟨r', by simp, ?_⟩
        rw [hr.comfds, hfd]
        simp
      · refine (h.internal fd file hf hk).imp_right (exists_mem_replace fun hm => ?_)
        rw [hr.comfds]
        exact List.mem_append_left _ hm
    · exact h.orphan
  | closed c _ hr hw =>
    refine h.replace fun fd file hf _ => ?_
    rw [hw.fdt] at hf
    obtain ⟨hne, hf⟩ := Option.ite_none_left_eq_some.mp hf
    rw [hr.fds, hr.comfds]
    exact ⟨hf, id, fun hm => (List.mem_erase_of_ne hne).mpr hm⟩
  | locked hr hw =>
    refine h.replace fun fd file hf _ => ?_
    rw [hr.fds, hr.comfds]
    exact ⟨hw.fdt ▸ hf, id, id⟩
  | unlocked _ hr hw =>
    refine h.replace fun fd file hf _ => ?_
    rw [hr.fds, hr.comfds]
    exact ⟨hw.fdt ▸ hf, id, id⟩

theorem Evolves.tracked (he : p.Evolves q) (h : Tracked p.orphans p.binds p.world) :
    Tracked q.orphans q.binds q.world := by
  rw [he.orphans]
  refine Changes.invariant (I := Tracked p.orphans) (fun _ _ _ hw h => ?_)
    (fun _ _ _ _ _ _ he h => h.effect he) he.changes h
  exact h.mono (fun _ _ hf _ => hw.fdt ▸ hf) fun _ hr => hr

/-! ### Calls of the program -/

/-- No connection is opened between two states of the kernel's side. -/
def NoneOpened (w w' : World) : Prop :=
  ∀ fd file, w'.fdt fd = some file → file.isConnection → w.fdt fd = some file

theorem NoneOpened.trans {w'' : World} (h : NoneOpened w w') (h' : NoneOpened w' w'') : NoneOpened w w'' :=
  fun fd file hf hk => h fd file (h' fd file hf hk) hk

theorem noneOpened_of_same (h : w.Same w') : NoneOpened w w' := fun _ _ hf _ => h.fdt ▸ hf

theorem noneOpened_of_closes {fd : Int} (h : w.Closes fd w') : NoneOpened w w' := by
  intro d file hf _
  rw [h.fdt] at hf
  exact (Option.ite_none_left_eq_some.mp hf).2

theorem noneOpened_of_opens {fd : Int} {kind : Kind} (hk : kind ≠ .client ∧ kind ≠ .internal)
    (h : w.Opens fd kind w') : NoneOpened w w' := by
  intro d file hf hc
  rw [h.fdt] at hf
  simp only at hf
  split at hf
  · cases hf
    rcases hc with hc | hc
    · exact absurd hc hk.1
    · exact absurd hc hk.2
  · exact hf

theorem noneOpened_allot {kind : Kind} (hk : kind ≠ .client ∧ kind ≠ .internal) :
    NoneOpened w (w.allot K kind).2 := by
  rcases w.allot_cases K kind with ⟨-, hw⟩ | ⟨fd, -, hw⟩
  · exact noneOpened_of_same hw
  · exact noneOpened_of_opens hk hw

theorem noneOpened_readFd (w : World) (fd recvfd port : Int) {kind : Kind} (hk : kind ≠ .client ∧ kind ≠ .internal) :
    NoneOpened w (dsuReadFd K w fd recvfd port kind).2.2 := by
  rcases dsuReadFd_cases K w fd recvfd port kind with ⟨-, hw⟩ | hw
  · exact noneOpened_of_same hw
  · exact noneOpened_of_opens hk hw

theorem noneOpened_inheritFd {s : DsuSocket} : NoneOpened w (dsuInheritFd K s w).2.2 := by
  rw [dsuInheritFd_eq]
  split
  · have hshadow : Kind.shadow ≠ .client ∧ Kind.shadow ≠ .internal := by simp
    have hcom : Kind.com ≠ .client ∧ Kind.com ≠ .internal := by simp
    exact (noneOpened_of_same w.same_tick).trans
      ((noneOpened_readFd w.tick s.comfd s.shadowfd 0 hshadow).trans
        ((noneOpened_readFd _ s.comfd 0 _ hcom).trans (noneOpened_of_closes (World.closes_close _ K s.comfd))))
  · exact noneOpened_of_same w.same_tick

theorem Tracked.bound {s : DsuSocket} (h : Tracked p.orphans p.binds p.world) (hb : Bound p s w q)
    (hw : NoneOpened p.world w) : Tracked q.orphans q.binds q.world := by
  obtain ⟨s', hbinds, -⟩ := hb.binds
  rw [hb.orphans, hbinds]
  exact h.mono (hw.trans (noneOpened_of_same hb.world)) fun r hr => List.mem_append_left _ hr

theorem bind_tracked (sockfd : Int) (port : Nat) (h : Tracked p.orphans p.binds p.world) :
    let q := (bind K p sockfd port).2
    Tracked q.orphans q.binds q.world := by
  have hallot : NoneOpened p.world (p.world.allot K .com).2.tick :=
    (noneOpened_allot (by simp)).trans (noneOpened_of_same (World.same_tick _))
  rcases bind_cases K p sockfd port with ⟨-, hq⟩ | ⟨s, -, ⟨-, hq⟩ | ⟨-, hq⟩⟩
  · simp only [hq]
    exact h
  · exact h.bound hq hallot
  · exact h.bound hq (hallot.trans noneOpened_inheritFd)

theorem socket_tracked (h : Tracked p.orphans p.binds p.world) :
    let q := (socket K p).2
    Tracked q.orphans q.binds q.world := by
  have hw : NoneOpened p.world (p.world.allot K .user).2 := noneOpened_allot (by simp)
  unfold socket
  simp only
  split
  · exact h.mono hw fun _ hr => hr
  · exact h.mono hw fun _ hr => hr

/-- The kernel hands out a connection of a bound socket only where its record is found. -/
theorem accept_tracked (sockfd : Int) (h : Tracked p.orphans p.binds p.world) :
    let q := (accept K p sockfd).2
    Tracked q.orphans q.binds q.world := by
  unfold accept
  simp only
  cases hfind : dsuSocketsSearchFd p.binds sockfd with
  | none =>
    have hupdate : dsuSocketsUpdate (·.fd == sockfd)
        (dsuSocketAddFds · (p.world.accept K (dsuShadowfd p.binds sockfd) .user).1 .nonInternal) p.binds = p.binds :=
      dsuSocketsUpdate_of_find_none hfind _
    have hw : NoneOpened p.world (p.world.accept K (dsuShadowfd p.binds sockfd) .user).2 := by
      rcases p.world.accept_cases K (dsuShadowfd p.binds sockfd) .user with ⟨-, hw⟩ | ⟨n, -, hw⟩
      · exact noneOpened_of_same hw
      · exact noneOpened_of_opens (by simp) hw
    simp only [Option.isSome_none, Bool.false_eq_true, ↓reduceIte, hupdate]
    split
    · exact h.mono hw fun _ hr => hr
    · exact h.mono hw fun _ hr => hr
  | some r =>
    simp only [Option.isSome_some, ↓reduceIte]
    rcases p.world.accept_cases K (dsuShadowfd p.binds sockfd) .client with ⟨hn, hw⟩ | ⟨n, hn, hw⟩
    · rw [if_pos hn]
      exact h.mono (noneOpened_of_same hw) fun _ hr => hr
    · have hpos := hw.nonneg
      rw [if_neg (by omega), hn]
      obtain ⟨pre, post, hbinds, hupdate⟩ := dsuSocketsUpdate_of_find hfind (dsuSocketAddFds · n .nonInternal)
      simp only [hupdate]
      rw [hbinds] at h
      constructor
      · intro fd file hf hk
        rw [hw.fdt] at hf
        simp only at hf
        split at hf
        · rename_i hfd
          exact Or.inr ⟨_, List.mem_append_right _ List.mem_cons_self, by simp [dsuSocketAddFds, hfd]⟩
        · exact (h.client fd file hf hk).imp_right
            (exists_mem_replace fun hm => by simp [dsuSocketAddFds, hm])
      · intro fd file hf hk
        rw [hw.fdt] at hf
        simp only at hf
        split at hf
        · cases hf
          cases hk
        · exact (h.internal fd file hf hk).imp_right (exists_mem_replace fun hm => by simpa [dsuSocketAddFds] using hm)
      · exact h.orphan

theorem mem_connections {r : DsuSocket} {fd : Int} {file : File} (hf : w.fdt fd = some file)
    (hk : file.isConnection) (hm : fd ∈ r.fds ∨ fd ∈ r.comfds) : (fd, file) ∈ r.connections w := by
  refine List.mem_filterMap.mpr ⟨fd, List.mem_append.mpr hm, ?_⟩
  rcases hk with hk | hk <;> simp [hf, hk]

theorem connection_of_mem {r : DsuSocket} {o : Int × File} (h : o ∈ r.connections w) : o.2.isConnection := by
  obtain ⟨fd, -, hfd⟩ := List.mem_filterMap.mp h
  obtain ⟨file, -, hite⟩ := Option.bind_eq_some_iff.mp hfd
  split at hite
  · rename_i hk
    cases hite
    simpa [File.isConnection] using hk
  · cases hite

/-- The connections of a record that is removed become orphans. -/
theorem Tracked.remove {pre post : List DsuSocket} {r : DsuSocket} (h : Tracked orphans (pre ++ r :: post) w')
    (hw : NoneOpened w w') : Tracked (orphans ++ r.connections w) (pre ++ post) w' where
  client fd file hf hk := by
    rcases h.client fd file hf hk with ho | ⟨x, hx, hm⟩
    · exact Or.inl (List.mem_append_left _ ho)
    · rcases List.mem_append.mp hx with hx | hx
      · exact Or.inr ⟨x, List.mem_append_left _ hx, hm⟩
      · rcases List.mem_cons.mp hx with rfl | hx
        · exact Or.inl (List.mem_append_right _ (mem_connections (hw fd file hf (Or.inl hk)) (Or.inl hk) (Or.inl hm)))
        · exact Or.inr ⟨x, List.mem_append_right _ hx, hm⟩
  internal fd file hf hk := by
    rcases h.internal fd file hf hk with ho | ⟨x, hx, hm⟩
    · exact Or.inl (List.mem_append_left _ ho)
    · rcases List.mem_append.mp hx with hx | hx
      · exact Or.inr ⟨x, List.mem_append_left _ hx, hm⟩
      · rcases List.mem_cons.mp hx with rfl | hx
        · exact Or.inl (List.mem_append_right _ (mem_connections (hw fd file hf (Or.inr hk)) (Or.inr hk) (Or.inr hm)))
        · exact Or.inr ⟨x, List.mem_append_right _ hx, hm⟩
  orphan o ho := by
    rcases List.mem_append.mp ho with ho | ho
    · exact h.orphan o ho
    · exact connection_of_mem ho

/-- A write to the record that a search returned, which takes at most a closed descriptor from its lists. -/
theorem Tracked.update {test : DsuSocket → Bool} {f : DsuSocket → DsuSocket} (h : Tracked orphans binds w)
    (hf : ∀ r fd file, w.fdt fd = some file → (fd ∈ r.fds → fd ∈ (f r).fds) ∧ (fd ∈ r.comfds → fd ∈ (f r).comfds)) :
    Tracked orphans (dsuSocketsUpdate test f binds) w := by
  cases hfind : binds.find? test with
  | none =>
    rw [dsuSocketsUpdate_of_find_none hfind]
    exact h
  | some r =>
    obtain ⟨pre, post, rfl, hupdate⟩ := dsuSocketsUpdate_of_find hfind f
    rw [hupdate]
    exact h.replace fun fd file hfd _ => ⟨hfd, hf r fd file hfd⟩

theorem close_tracked (sockfd : Int) (h : Tracked p.orphans p.binds p.world) :
    let q := close K p sockfd
    Tracked q.orphans q.binds q.world := by
  have hclosed : Tracked p.orphans p.binds (p.world.close K sockfd) :=
    h.mono (noneOpened_of_closes (p.world.closes_close K sockfd)) fun _ hr => hr
  have hne : ∀ fd file, (p.world.close K sockfd).fdt fd = some file → fd ≠ sockfd := by
    intro fd file hf
    rw [(p.world.closes_close K sockfd).fdt] at hf
    exact (Option.ite_none_left_eq_some.mp hf).1
  unfold close
  split
  · exact hclosed
  · split
    · exact hclosed
    · split
      · rename_i r hfind
        obtain ⟨pre, post, hbinds, hremove⟩ := dsuSocketsRemoveFd_of_find hfind
        simp only [Proc.dsuClose, hremove]
        rw [hbinds] at hclosed
        exact hclosed.remove (noneOpened_of_closes (p.world.closes_close K sockfd))
      · split
        · exact hclosed.update fun r fd file _ => ⟨id, id⟩
        · split
          · exact hclosed.update fun r fd file hf =>
              ⟨id, fun hm => (List.mem_erase_of_ne (hne fd file hf)).mpr hm⟩
          · split
            · exact hclosed.update fun r fd file hf =>
                ⟨fun hm => (List.mem_erase_of_ne (hne fd file hf)).mpr hm, id⟩
            · exact hclosed

theorem epollCtl_tracked (epfd : Int) (op : EpollOp) (fd : Int) (event : EpollEvent)
    (h : Tracked p.orphans p.binds p.world) :
    let q := (epollCtl K p epfd op fd event).2
    Tracked q.orphans q.binds q.world := by
  unfold epollCtl
  split
  · exact h.mono (fun d file hf _ => p.world.epollCtl_fdt K .. ▸ hf) fun _ hr => hr
  · rename_i r hfind
    obtain ⟨pre, post, hbinds, hupdate⟩ := dsuSocketsUpdate_of_find hfind
      ({ · with ev := if op = .del then noEvent else event })
    simp only [hupdate]
    rw [hbinds] at h
    exact h.replace fun d file hf _ => ⟨p.world.epollCtl_fdt K .. ▸ hf, id, id⟩

theorem step_tracked {call : Call} (h : Tracked p.orphans p.binds p.world) (hs : p.step K call = some q) :
    Tracked q.orphans q.binds q.world := by
  obtain ⟨-, hs⟩ := step_inv hs
  cases hs with
  | socket => exact socket_tracked h
  | bind sockfd port => exact bind_tracked sockfd port h
  | accept sockfd => exact accept_tracked sockfd h
  | close sockfd => exact close_tracked sockfd h
  | epollCtl epfd op fd event => exact epollCtl_tracked epfd op fd event h
  | event he => exact he.tracked h

theorem tracked_of_reachable (h : (procMachine K).Reachable p) : Tracked p.orphans p.binds p.world :=
  h.invariant (I := fun p => Tracked p.orphans p.binds p.world)
    (fun p hp => {
      client := fun fd file hf hk => by rw [(hp.user fd file hf).1] at hk; cases hk
      internal := fun fd file hf hk => by rw [(hp.user fd file hf).1] at hk; cases hk
      orphan := by simp [hp.orphans] })
    fun _ _ _ => step_tracked

/-! ### The detection -/

/-- What the detection has found when it lets the process go. -/
structure LetGo (p : Proc) : Prop where
  unmonitored : ∀ r ∈ p.binds, r.monitoring = false
  idle : ∀ r ∈ p.binds, r.comfds = [] ∧ r.fds = []
  handedOver : p.binds ≠ [] → ∃ r ∈ p.binds, r.version < (p.world.status r.port).version

theorem forbidsExit_false {r : DsuSocket} {version : Int} (h : r.forbidsExit version = false) :
    r.version < version ∧ r.monitoring = false ∧ r.comfds = [] ∧ r.fds = [] := by
  simpa [DsuSocket.forbidsExit, and_assoc] using h

theorem detection_records (h : (dsuTerminationDetection K binds w).1 = true) :
    ∀ r ∈ binds, r.monitoring = false ∧ r.comfds = [] ∧ r.fds = [] := by
  induction binds generalizing w with
  | nil => simp
  | cons r binds ih =>
    rw [dsuTerminationDetection_cons] at h
    split at h
    · cases h
    · rename_i hr
      intro x hx
      rcases List.mem_cons.mp hx with rfl | hx
      · exact (forbidsExit_false (by simpa using hr)).2
      · exact ih h x hx

/-- The last record was compared with the version of its port as it stands in the end. -/
theorem detection_handedOver (hne : binds ≠ []) (h : (dsuTerminationDetection K binds w).1 = true) :
    ∃ r ∈ binds, r.version < ((dsuTerminationDetection K binds w).2.status r.port).version := by
  induction binds generalizing w with
  | nil => exact absurd rfl hne
  | cons r binds ih =>
    rw [dsuTerminationDetection_cons] at h ⊢
    split at h
    · cases h
    · rename_i hr
      rw [if_neg hr]
      cases binds with
      | nil =>
        refine ⟨r, List.mem_cons_self, ?_⟩
        have hlt := (forbidsExit_false (by simpa using hr)).1
        unfold seenVersion at hlt
        split at hlt
        · exact hlt
        · omega
      | cons r' binds =>
        obtain ⟨x, hx, hlt⟩ := ih (by simp) h
        exact ⟨x, List.mem_cons_of_mem _ hx, hlt⟩

theorem dsuTerminate_status : (dsuTerminate K p).world.status = p.world.status := by
  unfold dsuTerminate
  simp only
  split <;> rfl

theorem dsuGoLive_exited : (dsuGoLive K p).exited = p.exited := by
  unfold dsuGoLive
  split <;> rfl

theorem dsuInitializeEvent_letGo (h : p.exited = false) (hq : (dsuInitializeEvent K p).exited = true) :
    (dsuInitializeEvent K p).LetGo := by
  unfold dsuInitializeEvent at hq ⊢
  have hlive := dsuGoLive_exited (K := K) (p := p)
  generalize dsuGoLive K p = p' at hq hlive ⊢
  simp only at hq ⊢
  split at hq
  · rename_i hdet
    rw [if_pos hdet]
    have hrec := detection_records hdet
    exact {
      unmonitored := fun r hr => (hrec r hr).1
      idle := fun r hr => (hrec r hr).2
      handedOver := fun hne => by
        rw [dsuTerminate_status]
        exact detection_handedOver hne hdet }
  · rw [show p'.exited = false from hlive.trans h] at hq
    cases hq

/-! ### Where a process exits -/

section Exits
variable {nfds : Int} {sets : FdSets} {timeout : Option Nat}

theorem selectRest_exited : (selectRest K p nfds sets timeout).1.exited = p.exited := by
  unfold selectRest
  simp only
  split <;> rfl

theorem ppollRest_exited {fds : List PollFd} : (ppollRest K fds timeout p).1.exited = p.exited := by
  unfold ppollRest
  simp only
  split
  · rfl
  · split
    · rfl
    · split <;> rfl

theorem epollRest_exited {epfd : Int} {events : Nat → Event} {maxevents : Nat} :
    (epollRest K epfd events maxevents timeout p).1.exited = p.exited := by
  unfold epollRest
  simp only
  split <;> rfl

/-- An event call that goes on when it has not exited at its start, exits there or not at all. -/
theorem exited_at_start {rest : Proc} (hrest : rest.exited = (dsuInitializeEvent K p).exited)
    (h : (if (dsuInitializeEvent K p).exited then dsuInitializeEvent K p else rest).exited = true) :
    (if (dsuInitializeEvent K p).exited then dsuInitializeEvent K p else rest) = dsuInitializeEvent K p := by
  split
  · rfl
  · rename_i hexit
    rw [if_neg hexit, hrest] at h
    exact absurd h hexit

theorem selectRound_exited (h : (selectRound K p nfds sets timeout).1.exited = true) :
    (selectRound K p nfds sets timeout).1 = dsuInitializeEvent K p := by
  simp only [selectRound, apply_ite Prod.fst] at h ⊢
  exact exited_at_start selectRest_exited h

theorem selectRound_again (h : (selectRound K p nfds sets timeout).2 = .again) :
    (selectRound K p nfds sets timeout).1.exited = false := by
  unfold selectRound at h ⊢
  simp only at h ⊢
  split
  · rename_i hexit
    rw [if_pos hexit] at h
    cases h
  · rename_i hexit
    rw [selectRest_exited]
    simpa using hexit

theorem select_exited {rounds : Nat} {round : Round} (h : p.exited = false)
    (hs : select K nfds sets timeout rounds p = some (q, round)) (hq : q.exited = true) :
    ∃ p', p'.exited = false ∧ q = dsuInitializeEvent K p' := by
  have hlast : (selectLast K nfds sets timeout rounds p).exited = false :=
    selectLast_inv (I := fun p => p.exited = false) (fun p hagain _ => selectRound_again hagain) rounds p h
  have hround := (select_eq_last hs).1
  rw [Prod.ext_iff] at hround
  refine ⟨_, hlast, hround.1.trans (selectRound_exited ?_)⟩
  rw [← hround.1]
  exact hq

theorem ppoll_exited (fds : List PollFd) (h : (ppoll K fds timeout p).1.exited = true) :
    (ppoll K fds timeout p).1 = dsuInitializeEvent K p := by
  simp only [ppoll, apply_ite Prod.fst] at h ⊢
  exact exited_at_start ppollRest_exited h

theorem epollWait_exited {epfd : Int} {events : Nat → Event} {maxevents : Nat}
    (h : (epollWait K epfd events maxevents timeout p).1.exited = true) :
    (epollWait K epfd events maxevents timeout p).1 = dsuInitializeEvent K p := by
  simp only [epollWait, apply_ite Prod.fst] at h ⊢
  exact exited_at_start epollRest_exited h

theorem accept_exited (sockfd : Int) : (accept K p sockfd).2.exited = p.exited := by
  unfold accept
  simp only
  generalize p.world.accept K (dsuShadowfd p.binds sockfd) _ = session
  split <;> rfl

theorem close_exited (sockfd : Int) : (OpenDSU.close K p sockfd).exited = p.exited := by
  unfold OpenDSU.close
  repeat' split
  all_goals rfl

theorem step_exited {call : Call} (hs : p.step K call = some q) (hq : q.exited = true) :
    ∃ p', p'.exited = false ∧ q = dsuInitializeEvent K p' := by
  have h := step_exited_false hs
  by_cases hwaits : call.waits = true
  · cases call with
    | select nfds sets timeout rounds =>
      obtain ⟨done, hsel, rfl⟩ := step_select hs
      exact select_exited h hsel hq
    | ppoll fds timeout =>
      rw [← step_ppoll hs] at hq ⊢
      exact ⟨p, h, ppoll_exited fds hq⟩
    | epollWait epfd events maxevents timeout =>
      rw [← step_epollWait hs] at hq ⊢
      exact ⟨p, h, epollWait_exited hq⟩
    | socket | bind | accept | close | epollCtl => cases hwaits
  cases step_takes hs with
  | event hwaits' => exact absurd hwaits' hwaits
  | socket =>
    unfold socket at hq
    simp only at hq
    split at hq <;> cases h.symm.trans hq
  | bind sockfd port =>
    rcases bind_cases K p sockfd port with ⟨-, hb⟩ | ⟨s, -, ⟨-, hb⟩ | ⟨-, hb⟩⟩
    · rw [hb] at hq
      cases h.symm.trans hq
    · cases h.symm.trans (hb.exited.symm.trans hq)
    · cases h.symm.trans (hb.exited.symm.trans hq)
  | accept sockfd => cases h.symm.trans ((accept_exited sockfd).symm.trans hq)
  | close sockfd => cases h.symm.trans ((close_exited sockfd).symm.trans hq)
  | epollCtl epfd op fd event =>
    unfold epollCtl at hq
    split at hq <;> cases h.symm.trans hq

end Exits

/-- A process that `dsu_termination_detection` has let go could go if and only if it has a record in `binds`
    and no connection is open of a bound socket that the program had closed. -/
theorem safeToExit_iff (h : (procMachine K).Reachable p) (hexit : p.exited = true) :
    p.SafeToExit ↔ p.binds ≠ [] ∧ ∀ o ∈ p.orphans, p.world.fdt o.1 ≠ some o.2 := by
  have htracked := tracked_of_reachable h
  have hgo : p.LetGo := by
    cases h with
    | init h => exact absurd (h.exited.symm.trans hexit) (by simp)
    | step call _ hs =>
      obtain ⟨p', hp', rfl⟩ := step_exited hs hexit
      exact dsuInitializeEvent_letGo hp' hexit
  constructor
  · intro hsafe
    obtain ⟨r, hr, -⟩ := hsafe.handedOver
    exact ⟨List.ne_nil_of_mem hr, fun o ho hf => hsafe.idle _ _ hf (htracked.orphan o ho)⟩
  · rintro ⟨hne, horphans⟩
    refine ⟨hgo.handedOver hne, hgo.unmonitored, fun fd file hf hk => ?_⟩
    -- The lists of the records that are left are empty.
    have hnone : ¬∃ r ∈ p.binds, fd ∈ r.fds ∨ fd ∈ r.comfds := by
      rintro ⟨r, hr, hm⟩
      simp [hgo.idle r hr] at hm
    rcases hk with hk | hk
    · rcases htracked.client fd file hf hk with ho | ⟨r, hr, hm⟩
      · exact horphans _ ho hf
      · exact hnone ⟨r, hr, Or.inl hm⟩
    · rcases htracked.internal fd file hf hk with ho | ⟨r, hr, hm⟩
      · exact horphans _ ho hf
      · exact hnone ⟨r, hr, Or.inr hm⟩

/-- Another version takes over at clock 8, after the socket is bound. -/
def updatedKernel : Kernel :=
  { soloKernel with
    status := fun w port => { w.status port with version := if w.clock < 8 then 0 else 1 } }

/-- After an update of its only port, a process without connections may exit and does. -/
theorem safeToExit_after_update : ∃ p, (procMachine updatedKernel).run loaded
      [.socket, .bind 3 8080, .epollWait 9 (fun _ => { ev := noEvent, origin := none }) 1 none] = some p ∧
    p.exited = true ∧ p.binds.length = 1 ∧
    (p.SafeToExit ↔ p.binds ≠ [] ∧ ∀ o ∈ p.orphans, p.world.fdt o.1 ≠ some o.2) :=
  ⟨_, rfl, rfl, rfl, safeToExit_iff (K := updatedKernel) (.of_run
    [.socket, .bind 3 8080, .epollWait 9 (fun _ => { ev := noEvent, origin := none }) 1 none]
    (.init started_loaded) rfl) rfl⟩

/-- A process accepts connection 5 on its bound socket 3, closes socket 3 and waits: it exits, with nothing
    handed over and the connection open. -/
theorem exit_with_open_connection : ∃ p, (procMachine soloKernel).run loaded
      [.socket, .bind 3 8080, .accept 3, .close 3,
        .epollWait 9 (fun _ => { ev := noEvent, origin := none }) 1 none] = some p ∧
    p.exited = true ∧ p.binds = [] ∧ p.world.fdt 5 = some { id := 5, kind := .client } ∧ ¬p.SafeToExit := by
  refine ⟨_, rfl, rfl, rfl, rfl, fun h => ?_⟩
  exact h.idle 5 _ rfl (Or.inl rfl)

end Proc
end OpenDSU
