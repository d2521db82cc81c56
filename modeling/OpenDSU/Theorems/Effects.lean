import OpenDSU.Process
import OpenDSU.Theorems.KernelStep

/-! What an event call may do to the records in `binds` and to the kernel's side of the process, one record
and one step at a time. Every pass over the records is made of these steps. -/

open Relation

namespace OpenDSU

/-- The internal descriptors of a record that a wait watches. -/
def DsuSocket.watched (r : DsuSocket) : List Int := (if r.monitoring then [r.comfd] else []) ++ r.comfds

/-- Two records that differ in nothing an effect names. -/
structure Alike (r r' : DsuSocket) : Prop where
  fd : r'.fd = r.fd
  shadowfd : r'.shadowfd = r.shadowfd
  port : r'.port = r.port
  comfd : r'.comfd = r.comfd
  fds : r'.fds = r.fds
  comfds : r'.comfds = r.comfds
  monitoring : r'.monitoring = r.monitoring
  locked : r'.locked = r.locked
  fdSem : r'.fdSem = r.fdSem

theorem Alike.refl (r : DsuSocket) : Alike r r := ⟨rfl, rfl, rfl, rfl, rfl, rfl, rfl, rfl, rfl⟩

/-- One step of a library pass on a record. -/
inductive Effect : DsuSocket × World → DsuSocket × World → Prop
  | quiet {r r' : DsuSocket} {w w' : World} (hr : Alike r r') (hw : w.Same w') : Effect (r, w) (r', w')
  /-- The record stops monitoring and its `comfd` is closed. -/
  | quit {r r' : DsuSocket} {w w' : World} (hm : r.monitoring = true) (hr : Alike { r with monitoring := false } r')
      (hw : w.Closes r.comfd w') : Effect (r, w) (r', w')
  /-- A connection of another version is accepted. -/
  | accepted {r r' : DsuSocket} {w w' : World} (c : Int) (hr : Alike { r with comfds := r.comfds ++ [c] } r')
      (hw : w.Opens c .internal w') : Effect (r, w) (r', w')
  /-- A connection of another version is closed. -/
  | closed {r r' : DsuSocket} {w w' : World} (c : Int) (hc : c ∈ r.comfds)
      (hr : Alike { r with comfds := r.comfds.erase c } r') (hw : w.Closes c w') : Effect (r, w) (r', w')
  | locked {r r' : DsuSocket} {w w' : World} (hr : Alike { r with locked := true } r') (hw : w.Locks r.fdSem w') :
    Effect (r, w) (r', w')
  | unlocked {r r' : DsuSocket} {w w' : World} (hl : r.locked = true) (hr : Alike { r with locked := false } r')
      (hw : w.Unlocks r.fdSem w') : Effect (r, w) (r', w')

abbrev Effects := ReflTransGen Effect

/-- One step of a pass that translates descriptors before a wait. -/
inductive Ask : DsuSocket × World → DsuSocket × World → Prop
  | quiet {r : DsuSocket} {w w' : World} (hw : w.Same w') : Ask (r, w) (r, w')
  | locked {r : DsuSocket} {w w' : World} (hw : w.Locks r.fdSem w') : Ask (r, w) ({ r with locked := true }, w')

abbrev Asks := ReflTransGen Ask

theorem Ask.effect {c c' : DsuSocket × World} (h : Ask c c') : Effect c c' := by
  cases h with
  | quiet hw => exact .quiet (.refl _) hw
  | locked hw => exact .locked (.refl _) hw

/-- One step of a library pass on the process: on a record, or on the kernel's side alone. -/
inductive Change : List DsuSocket × World → List DsuSocket × World → Prop
  | effect {c c' : List DsuSocket × World} (h : Within Effect c c') : Change c c'
  | quiet {l : List DsuSocket} {w w' : World} (hw : w.Same w') : Change (l, w) (l, w')

abbrev Changes := ReflTransGen Change

theorem Changes.quiet {l : List DsuSocket} {w w' : World} (hw : w.Same w') : Changes (l, w) (l, w') :=
  .single (.quiet hw)

theorem Changes.of_walk {σ : Type} {f : DsuSocket → σ → DsuSocket × σ} (view : σ → World)
    (h : ∀ r s, Effects (r, view s) ((f r s).1, view (f r s).2)) (l : List DsuSocket) (s : σ) :
    Changes (l, view s) ((walk f l s).1, view (walk f l s).2) :=
  ReflTransGen.mono (fun _ _ h => .effect h) _ _ (walk_within h [] l s)

theorem Changes.of_walk_world {f : DsuSocket → World → DsuSocket × World} (h : ∀ r w, Effects (r, w) (f r w))
    (l : List DsuSocket) (w : World) : Changes (l, w) (walk f l w) :=
  Changes.of_walk (fun w => w) h l w

/-- The invariant rule for the passes: what every effect keeps, whatever records stand beside, and what
    depends on the descriptors and locks alone of the kernel's side. -/
theorem Changes.invariant {I : List DsuSocket → World → Prop} (quiet : ∀ l w w', w.Same w' → I l w → I l w')
    (effect : ∀ pre post r r' w w', Effect (r, w) (r', w') → I (pre ++ r :: post) w → I (pre ++ r' :: post) w')
    {c c' : List DsuSocket × World} (hc : Changes c c') (hi : I c.1 c.2) : I c'.1 c'.2 := by
  induction hc with
  | refl => exact hi
  | tail _ hs ih =>
    cases hs with
    | effect h =>
      cases h with
      | step pre post h => exact effect pre post _ _ _ _ h ih
    | quiet hw => exact quiet _ _ _ hw ih

/-- What every effect leaves of its record, the passes leave of all records. -/
theorem Changes.map {β : Type} {g : DsuSocket → β}
    (hg : ∀ {r r' : DsuSocket} {w w' : World}, Effect (r, w) (r', w') → g r' = g r)
    {c c' : List DsuSocket × World} (h : Changes c c') : c'.1.map g = c.1.map g :=
  Changes.invariant (I := fun l _ => l.map g = c.1.map g) (fun _ _ _ _ hl => hl)
    (fun pre post r r' w w' he hl => by
      rw [← hl]
      simp [hg he]) h rfl

section Passes
variable (K : Kernel) (r : DsuSocket) (w : World)

theorem Effects.quiet {r r' : DsuSocket} {w w' : World} (hr : Alike r r') (hw : w.Same w') :
    Effects (r, w) (r', w') :=
  .single (.quiet hr hw)

/-! ### Serving another version -/

/-- Accepting adds a connection under a number that was free, or does nothing. -/
theorem acceptConn_cases :
    ((acceptConn K r w).1 = r ∧ w.Same (acceptConn K r w).2) ∨
    ∃ c, (acceptConn K r w).1 = { r with comfds := r.comfds ++ [c] } ∧ w.Opens c .internal (acceptConn K r w).2 := by
  change (_ ∧ w.Same (w.accept4 K r.comfd).2) ∨ ∃ c, _ ∧ w.Opens c .internal (w.accept4 K r.comfd).2
  have hlog : (w.accept K r.comfd .internal).2.Same (w.accept4 K r.comfd).2 := World.same_record _ rfl
  rcases w.accept_cases K r.comfd .internal with ⟨hc, hw⟩ | ⟨c, hc, hw⟩
  · exact Or.inl ⟨by simp [acceptConn, World.accept4, hc], hw.trans hlog⟩
  · have hne : c ≠ -1 := by
      have := hw.nonneg
      omega
    exact Or.inr ⟨c, by simp [acceptConn, World.accept4, hc, hne, dsuSocketAddFds], hw.same hlog⟩

theorem acceptConn_effects : Effects (r, w) (acceptConn K r w) := by
  change Effects (r, w) ((acceptConn K r w).1, (acceptConn K r w).2)
  rcases acceptConn_cases K r w with ⟨hr, hw⟩ | ⟨c, hr, hw⟩ <;> rw [hr]
  · exact .quiet (.refl r) hw
  · exact .single (.accepted c (.refl _) hw)

theorem answerConn_eq (c : Int) : answerConn K c r w =
    match (w.recv K c).1 with
    | .closed => (true, { r with comfds := r.comfds.erase c }, (w.recv K c).2.close K c)
    | .again => (false, r, (w.recv K c).2)
    | .error => (false, r, dsuWriteFd K (dsuWriteFd K (w.recv K c).2 c r.shadowfd (-1)) c r.comfd (-1))
    | .request =>
      let w := ((w.recv K c).2.waitStatus K r.port).2
      let a := answerSection (w.status r.port) r
      (false, a.2, dsuWriteFd K (dsuWriteFd K (w.setStatus a.2.port a.1) c a.2.shadowfd a.2.port) c a.2.comfd a.2.port) :=
  rfl

/-- Answering does one of three things: it closes the connection, or leaves the record as it is, or marks it
    as counted. -/
theorem answerConn_cases (c : Int) :
    ((w.recv K c).1 = .closed ∧ (answerConn K c r w).1 = true ∧
      (answerConn K c r w).2.1 = { r with comfds := r.comfds.erase c } ∧ w.Closes c (answerConn K c r w).2.2) ∨
    ((w.recv K c).1 ≠ .closed ∧ (answerConn K c r w).1 = false ∧ w.Same (answerConn K c r w).2.2 ∧
      ((answerConn K c r w).2.1 = r ∨ (answerConn K c r w).2.1 = { r with transfer := true })) := by
  rw [answerConn_eq]
  have hrecv := w.same_recv K c
  cases (w.recv K c).1 with
  | closed => exact Or.inl ⟨rfl, rfl, rfl, hrecv.closes (World.closes_close _ K c)⟩
  | again => exact Or.inr ⟨by simp, rfl, hrecv, Or.inl rfl⟩
  | error =>
    exact Or.inr ⟨by simp, rfl, hrecv.trans ((same_dsuWriteFd K _ _ _ _).trans (same_dsuWriteFd K _ _ _ _)),
      Or.inl rfl⟩
  | request =>
    refine Or.inr ⟨by simp, rfl, hrecv.trans (((World.same_waitStatus _ K r.port).trans
      (World.same_setStatus _ _ _)).trans ((same_dsuWriteFd K _ _ _ _).trans (same_dsuWriteFd K _ _ _ _))), ?_⟩
    simp only [answerSection]
    split
    · exact Or.inl rfl
    · exact Or.inr rfl

theorem answerConn_effects {c : Int} (hc : c ∈ r.comfds) : Effects (r, w) (answerConn K c r w).2 := by
  change Effects (r, w) ((answerConn K c r w).2.1, (answerConn K c r w).2.2)
  rcases answerConn_cases K r w c with ⟨-, -, hr, hw⟩ | ⟨-, -, hw, hr | hr⟩ <;> rw [hr]
  · exact .single (.closed c hc (.refl _) hw)
  · exact .quiet (.refl _) hw
  · exact .quiet ⟨rfl, rfl, rfl, rfl, rfl, rfl, rfl, rfl, rfl⟩ hw

/-- After the first of the descriptors that a loop has yet to visit is erased, it has yet to visit the
    others. -/
theorem suffix_erase {c : Int} {cs l : List Int} (h : c :: cs <:+ l) : cs <:+ l.erase c := by
  obtain ⟨pre, rfl⟩ := h
  by_cases hc : c ∈ pre
  · rw [List.erase_append_left _ hc]
    exact ⟨pre.erase c ++ [c], by simp⟩
  · rw [List.erase_append_right _ hc, List.erase_cons_head]
    exact List.suffix_append _ _

theorem suffix_tail {c : Int} {cs l : List Int} (h : c :: cs <:+ l) : cs <:+ l :=
  (List.suffix_cons c cs).trans h

theorem answerConn_suffix {c : Int} {cs : List Int} (h : c :: cs <:+ r.comfds) :
    cs <:+ (answerConn K c r w).2.1.comfds := by
  rcases answerConn_cases K r w c with ⟨-, -, hr, -⟩ | ⟨-, -, -, hr | hr⟩ <;> rw [hr]
  · exact suffix_erase h
  · exact suffix_tail h
  · exact suffix_tail h

theorem answerConn_closed {c : Int} (h : (answerConn K c r w).1 = true) : (answerConn K c r w).2.2.isOpen c = false := by
  rcases answerConn_cases K r w c with ⟨-, -, -, hw⟩ | ⟨-, hno, -⟩
  · simp [World.isOpen, hw.fdt]
  · rw [hno] at h
    cases h

/-- One step of a handler: it accepts a connection of another version, or answers one, or deletes the registration
    of one that is closed. -/
inductive HandlerStep (K : Kernel) : DsuSocket × World → DsuSocket × World → Prop
  | accept (r : DsuSocket) (w : World) : HandlerStep K (r, w) (acceptConn K r w)
  | answer {r : DsuSocket} {w : World} {c : Int} (hc : c ∈ r.comfds) : HandlerStep K (r, w) (answerConn K c r w).2
  | unlist {r : DsuSocket} {w : World} (epollfd : Int) {c : Int} (hc : w.isOpen c = false) :
    HandlerStep K (r, w) (r, (w.epollCtl K epollfd .del c noEvent true).2)

abbrev Handles (K : Kernel) := ReflTransGen (HandlerStep K)

theorem Handles.effects {K : Kernel} {c c' : DsuSocket × World} (h : Handles K c c') : Effects c c' := by
  induction h with
  | refl => exact .refl
  | tail _ hs ih =>
    refine ih.trans ?_
    cases hs with
    | accept r w => exact acceptConn_effects K r w
    | answer hc => exact answerConn_effects K _ _ hc
    | unlist epollfd hc => exact Effects.quiet (.refl _) (World.same_epollCtl _ K epollfd (by simp))

/-! ### The passes of `select` -/

theorem dsuHandleComfds_cons (c : Int) (cs : List Int) (s : SelectPass) : dsuHandleComfds K (c :: cs) r s =
    if fdIsset c s.readfds then
      dsuHandleComfds K cs (answerConn K c r s.world).2.1 (s.served c (answerConn K c r s.world).2.2)
    else dsuHandleComfds K cs r s :=
  rfl

theorem dsuHandleConn_eq (s : SelectPass) : dsuHandleConn K r s =
    if fdIsset r.comfd s.readfds then
      dsuHandleComfds K (acceptConn K r s.world).1.comfds (acceptConn K r s.world).1
        (s.served r.comfd (acceptConn K r s.world).2)
    else dsuHandleComfds K r.comfds r s :=
  rfl

theorem dsuHandleComfds_handles {cs : List Int} (s : SelectPass) (h : cs <:+ r.comfds) :
    Handles K (r, s.world) ((dsuHandleComfds K cs r s).1, (dsuHandleComfds K cs r s).2.world) := by
  induction cs generalizing r s with
  | nil => exact .refl
  | cons c cs ih =>
    rw [dsuHandleComfds_cons]
    split
    · have hc : c ∈ r.comfds := h.subset List.mem_cons_self
      have hrest := ih _ (s.served c (answerConn K c r s.world).2.2) (answerConn_suffix K r s.world h)
      exact .head (.answer hc) hrest
    · exact ih r s (suffix_tail h)

theorem dsuHandleConn_handles (s : SelectPass) :
    Handles K (r, s.world) ((dsuHandleConn K r s).1, (dsuHandleConn K r s).2.world) := by
  rw [dsuHandleConn_eq]
  split
  · have hrest := dsuHandleComfds_handles K (acceptConn K r s.world).1
      (s.served r.comfd (acceptConn K r s.world).2) (List.suffix_refl _)
    exact .head (.accept r s.world) hrest
  · exact dsuHandleComfds_handles K r s (List.suffix_refl _)

theorem dsuHandleConn_effects (s : SelectPass) :
    Effects (r, s.world) ((dsuHandleConn K r s).1, (dsuHandleConn K r s).2.world) :=
  (dsuHandleConn_handles K r s).effects

theorem foldl_listen_world (cs : List Int) (s : SelectPass) : (cs.foldl SelectPass.listen s).world = s.world := by
  induction cs generalizing s with
  | nil => rfl
  | cons c cs ih => exact ih _

theorem dsuSniffConn_asks (s : SelectPass) :
    Asks (r, s.world) ((dsuSniffConn r s).1, (dsuSniffConn r s).2.world) := by
  unfold dsuSniffConn
  split
  · exact .refl
  · simp only [foldl_listen_world]
    split <;> exact .refl

theorem unlockFd_effects : Effects (r, w) (unlockFd r w) := by
  unfold unlockFd
  split
  · rename_i hl
    exact .single (.unlocked hl (.refl _) (w.unlocks_post r.fdSem))
  · exact .refl

/-- The lock is taken for the record, or nothing happens. -/
theorem tryMonitor_ask (transfer : Bool) : Ask (r, w)
    (match (tryMonitor K r transfer w).1 with | .locked => { r with locked := true } | _ => r,
      (tryMonitor K r transfer w).2.2) := by
  rcases tryMonitor_cases K w r transfer with ⟨hne, hw⟩ | ⟨he, hw⟩
  · cases hacc : (tryMonitor K r transfer w).1 with
    | refused => exact .quiet hw
    | free => exact .quiet hw
    | locked => exact absurd hacc hne
  · rw [he]
    exact .locked hw

theorem dsuPreSelect_asks (s : SelectPass) :
    Asks (r, s.world) ((dsuPreSelect K r s).1, (dsuPreSelect K r s).2.world) := by
  unfold dsuPreSelect
  split
  · simp only
    split
    · have h := tryMonitor_ask K r s.world s.transfer
      cases hacc : (tryMonitor K r s.transfer s.world).1 <;> rw [hacc] at h <;> exact .single h
    · exact .refl
  · exact .refl

theorem dsuPostSelect_effects (s : SelectPass) :
    Effects (r, s.world) ((dsuPostSelect r s).1, (dsuPostSelect r s).2.world) := by
  unfold dsuPostSelect
  simp only
  split
  · exact unlockFd_effects r s.world
  · exact unlockFd_effects r s.world

/-! ### The passes of `ppoll` -/

theorem dsuHandleComfdsPoll_cons (fd c : Int) (cs : List Int) : dsuHandleComfdsPoll K fd (c :: cs) r w =
    if fd = c then dsuHandleComfdsPoll K fd cs (answerConn K c r w).2.1 (answerConn K c r w).2.2
    else dsuHandleComfdsPoll K fd cs r w :=
  rfl

theorem dsuHandleComfdsPoll_handles {cs : List Int} (fd : Int) (h : cs <:+ r.comfds) :
    Handles K (r, w) (dsuHandleComfdsPoll K fd cs r w) := by
  induction cs generalizing r w with
  | nil => exact .refl
  | cons c cs ih =>
    rw [dsuHandleComfdsPoll_cons]
    split
    · have hc : c ∈ r.comfds := h.subset List.mem_cons_self
      have hrest := ih _ (answerConn K c r w).2.2 (answerConn_suffix K r w h)
      exact .head (.answer hc) hrest
    · exact ih r w (suffix_tail h)

theorem dsuHandleEntryPoll_eq (s : PollPass) (e : PollFd) : dsuHandleEntryPoll K (r, s) e =
    if e.revents = 0 then (r, s)
    else
      let q :=
        if e.fd = r.comfd then acceptConn K r s.world else dsuHandleComfdsPoll K e.fd r.comfds r s.world
      (q.1, { world := q.2, correction := s.correction + 1 }) :=
  rfl

theorem dsuHandleEntryPoll_handles (s : PollPass) (e : PollFd) :
    Handles K (r, s.world) ((dsuHandleEntryPoll K (r, s) e).1, (dsuHandleEntryPoll K (r, s) e).2.world) := by
  rw [dsuHandleEntryPoll_eq]
  split
  · exact .refl
  · simp only
    split
    · exact .single (.accept r s.world)
    · exact dsuHandleComfdsPoll_handles K r s.world e.fd (List.suffix_refl _)

theorem foldl_entriesPoll_handles (es : List PollFd) (s : PollPass) :
    Handles K (r, s.world)
      ((es.foldl (dsuHandleEntryPoll K) (r, s)).1, (es.foldl (dsuHandleEntryPoll K) (r, s)).2.world) := by
  induction es generalizing r s with
  | nil => exact .refl
  | cons e es ih => exact (dsuHandleEntryPoll_handles K r s e).trans (ih _ _)

theorem dsuHandleConnPoll_handles (fds : Nat → PollFd) (start stop : Nat) (s : PollPass) :
    Handles K (r, s.world)
      ((dsuHandleConnPoll K fds start stop r s).1, (dsuHandleConnPoll K fds start stop r s).2.world) :=
  foldl_entriesPoll_handles K r _ s

theorem dsuHandleConnPoll_effects (fds : Nat → PollFd) (start stop : Nat) (s : PollPass) :
    Effects (r, s.world)
      ((dsuHandleConnPoll K fds start stop r s).1, (dsuHandleConnPoll K fds start stop r s).2.world) :=
  (dsuHandleConnPoll_handles K r fds start stop s).effects

theorem dsuUnlock_effects : Effects (r, w) (dsuUnlock r w) := unlockFd_effects r w

/-! ### The passes of `epoll_wait` -/

theorem dsuHandleComfdsEpoll_cons (epollfd c : Int) (cs : List Int) (e : Event) :
    dsuHandleComfdsEpoll K epollfd (c :: cs) e r w =
      if e.ev.data.fd = c then
        let a := answerConn K c r w
        if a.1 then
          dsuHandleComfdsEpoll K epollfd cs { e with ev := { e.ev with data := { e.ev.data with fd := -1 } } } a.2.1
            (a.2.2.epollCtl K epollfd .del c noEvent true).2
        else dsuHandleComfdsEpoll K epollfd cs e a.2.1 a.2.2
      else dsuHandleComfdsEpoll K epollfd cs e r w :=
  rfl

theorem epollCtl_effects (epfd : Int) {op : EpollOp} {fd : Int} {ev : EpollEvent} {internal : Bool}
    (h : op ≠ .mod ∧ (op = .add → internal = true → ev.data.fd = fd)) :
    Effects (r, w) (r, (w.epollCtl K epfd op fd ev internal).2) :=
  .quiet (.refl r) (w.same_epollCtl K epfd h)

theorem dsuHandleComfdsEpoll_handles {cs : List Int} (epollfd : Int) (e : Event) (h : cs <:+ r.comfds) :
    Handles K (r, w) (dsuHandleComfdsEpoll K epollfd cs e r w).2 := by
  induction cs generalizing e r w with
  | nil => exact .refl
  | cons c cs ih =>
    rw [dsuHandleComfdsEpoll_cons]
    split
    · have hc : c ∈ r.comfds := h.subset List.mem_cons_self
      have hs := answerConn_suffix K r w h
      simp only
      split
      · rename_i hclosed
        exact .head (.answer hc) (.head (.unlist epollfd (answerConn_closed K r w hclosed)) (ih _ _ _ hs))
      · exact .head (.answer hc) (ih _ _ _ hs)
    · exact ih r w e (suffix_tail h)

theorem dsuHandleEntryEpoll_handles (epollfd : Int) (e : Event) :
    Handles K (r, w) (dsuHandleEntryEpoll K epollfd e (r, w)).2 := by
  unfold dsuHandleEntryEpoll
  simp only
  split
  · exact .refl
  · split
    · exact .single (.accept r w)
    · exact dsuHandleComfdsEpoll_handles K r w epollfd e (List.suffix_refl _)

theorem walk_entriesEpoll_handles (epollfd : Int) (es : List Event) :
    Handles K (r, w) (walk (dsuHandleEntryEpoll K epollfd) es (r, w)).2 := by
  induction es generalizing r w with
  | nil => exact .refl
  | cons e es ih => exact (dsuHandleEntryEpoll_handles K r w epollfd e).trans (ih _ _)

theorem dsuHandleConnEpoll_handles (epollfd : Int) (s : List Event × World) :
    Handles K (r, s.2) ((dsuHandleConnEpoll K epollfd r s).1, (dsuHandleConnEpoll K epollfd r s).2.2) :=
  walk_entriesEpoll_handles K r s.2 epollfd s.1

theorem dsuHandleConnEpoll_effects (epollfd : Int) (s : List Event × World) :
    Effects (r, s.2) ((dsuHandleConnEpoll K epollfd r s).1, (dsuHandleConnEpoll K epollfd r s).2.2) :=
  (dsuHandleConnEpoll_handles K r epollfd s).effects

theorem foldl_epollListen_effects (epollfd : Int) (cs : List Int) :
    Effects (r, w) (r, cs.foldl (epollListen K epollfd) w) := by
  induction cs generalizing w with
  | nil => exact .refl
  | cons c cs ih => exact (epollCtl_effects K r w _ (by simp)).trans (ih _)

theorem dsuEpollInternalConn_effects (epollfd : Int) : Effects (r, w) (dsuEpollInternalConn K epollfd r w) := by
  unfold dsuEpollInternalConn
  split
  · exact (epollCtl_effects K r w _ (by simp)).trans (foldl_epollListen_effects K r _ _ _)
  · exact foldl_epollListen_effects K r _ _ _

theorem dsuEpollShadowfd_effects (epollfd : Int) : Effects (r, w) (dsuEpollShadowfd K epollfd r w) := by
  have hdel : Effects (r, w)
      (r, if r.ev.events ≠ 0 then (w.epollCtl K epollfd .del r.fd noEvent false).2 else w) := by
    split
    · exact epollCtl_effects K r w _ (by simp)
    · exact .refl
  unfold dsuEpollShadowfd
  simp only
  split
  · refine hdel.trans ?_
    generalize (if r.ev.events ≠ 0 then (w.epollCtl K epollfd .del r.fd noEvent false).2 else w) = w
    have h := (tryMonitor_ask K r w false).effect
    cases hacc : (tryMonitor K r false w).1 <;> rw [hacc] at h
    · exact .single h
    · exact (ReflTransGen.single h).trans (epollCtl_effects K r _ _ (by simp))
    · exact (ReflTransGen.single h).trans (epollCtl_effects K _ _ _ (by simp))
  · exact hdel

theorem dsuEpollUnlock_effects : Effects (r, w) (dsuEpollUnlock r w) := unlockFd_effects r w

theorem dsuEpollOriginalfd_effects (epollfd : Int) : Effects (r, w) (dsuEpollOriginalfd K epollfd r w) := by
  unfold dsuEpollOriginalfd
  split
  · exact (epollCtl_effects K r w _ (by simp)).trans (epollCtl_effects K r _ _ (by simp))
  · exact .refl

/-! ### The start of an event call -/

theorem dsuMonitorFd_effects (pgid : Int) : Effects (r, w) (dsuMonitorFd K pgid r w) := by
  have hstatus := w.same_waitStatus K r.port
  unfold dsuMonitorFd
  simp only
  split
  · rcases monitorSection_cases pgid ((w.waitStatus K r.port).2.status r.port) r with
      ⟨hq, he⟩ | ⟨hq, -, he⟩ | ⟨hq, -, he⟩ <;> rw [he, hq]
    · exact .single (.quit (quits_iff.mp hq).2.1 ⟨rfl, rfl, rfl, rfl, rfl, rfl, rfl, rfl, rfl⟩
        ((hstatus.closes (World.closes_close _ K r.comfd)).same (World.same_setStatus _ _ _)))
    · exact .quiet (.refl r) (hstatus.trans (World.same_setStatus _ _ _))
    · exact .quiet (.refl r) (hstatus.trans (World.same_setStatus _ _ _))
  · exact .quiet (.refl r) hstatus

theorem dsuConfigureSocket_effects : Effects (r, w) (dsuConfigureSocket K r w) :=
  .quiet ⟨rfl, rfl, rfl, rfl, rfl, rfl, rfl, rfl, rfl⟩ w.same_tick

end Passes

end OpenDSU
