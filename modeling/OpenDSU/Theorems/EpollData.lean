import OpenDSU.Theorems.EpollFilter

/-! Whether the data that the program stores with its own descriptors is opaque to `epoll_wait`.

The handlers, the filter and the way back to the stored event read the low word of the data of every event as a
descriptor. An event of the program is left alone as long as that number is none of the library's. -/

open Relation

namespace OpenDSU

variable {K : Kernel} {p : Proc} {r r' : DsuSocket} {w w' : World} {binds : List DsuSocket} {c d epollfd : Int}

/-! ### Numbers that accept4 returns -/

def Sys.accepts (d : Int) : Sys → Bool
  | .accept4 _ res => res == d
  | _ => false

/-- How often a handler has accepted a connection under the number. -/
def World.accepts (w : World) (d : Int) : Nat := w.log.countP (Sys.accepts d)

theorem World.accepts_record (d : Int) {e : Sys} (h : e.accepts d = false) : (w.record e).accepts d = w.accepts d := by
  simp [World.accepts, World.record, h]

theorem World.accepts_epollCtl (epfd : Int) (op : EpollOp) (fd : Int) (ev : EpollEvent) (internal : Bool) (d : Int) :
    (w.epollCtl K epfd op fd ev internal).2.accepts d = w.accepts d := by
  unfold epollCtl
  split
  · rfl
  · split
    · rfl
    · cases op <;> simp only <;> split <;> rfl

theorem dsuWriteFd_accepts (fd sendfd port d : Int) : (dsuWriteFd K w fd sendfd port).accepts d = w.accepts d := by
  unfold dsuWriteFd
  split
  · exact World.accepts_record d rfl
  · rfl

theorem World.accepts_close (fd d : Int) : (w.close K fd).accepts d = w.accepts d := by
  unfold close
  split
  · exact accepts_record d rfl
  · simp [World.accepts, Sys.accepts]

theorem answerConn_accepts (c d : Int) (r : DsuSocket) (w : World) :
    (answerConn K c r w).2.2.accepts d = w.accepts d := by
  have hrecv : (w.recv K c).2.accepts d = w.accepts d := World.accepts_record d rfl
  have hstatus : ∀ (w : World) (port port' : Nat) (st : Status),
      ((w.waitStatus K port).2.setStatus port' st).accepts d = w.accepts d := fun _ _ _ _ => rfl
  rw [answerConn_eq]
  cases (w.recv K c).1 with
  | closed => exact (World.accepts_close c d).trans hrecv
  | again => exact hrecv
  | error => simpa [dsuWriteFd_accepts] using hrecv
  | request => simpa [dsuWriteFd_accepts, hstatus] using hrecv

theorem acceptConn_accepts (r : DsuSocket) (w : World) (d : Int) : (acceptConn K r w).2.accepts d =
    w.accepts d + if (w.accept K r.comfd .internal).1 = d then 1 else 0 := by
  have hlog : (w.accept K r.comfd .internal).2.log = w.log := by
    unfold World.accept World.allot
    repeat' split
    all_goals rfl
  change ((w.accept K r.comfd .internal).2.log ++ [Sys.accept4 r.comfd (w.accept K r.comfd .internal).1]).countP
    (Sys.accepts d) = _
  rw [hlog, List.countP_append, List.countP_singleton]
  simp only [Sys.accepts, beq_iff_eq]
  rfl

/-! ### What a handler leaves alone -/

/-- The number is none under which the record serves other versions. -/
def Avoids (r : DsuSocket) (d : Int) : Prop := d ≠ r.comfd ∧ d ∉ r.comfds

/-- A number that the record avoids is avoided after the step, unless a connection was accepted under it. -/
structure Spares (d : Int) (a a' : DsuSocket × World) : Prop where
  le : a.2.accepts d ≤ a'.2.accepts d
  avoids : Avoids a.1 d → a'.2.accepts d = a.2.accepts d → Avoids a'.1 d
  stored : a'.1.shadowfd = a.1.shadowfd ∧ a'.1.ev = a.1.ev

theorem Spares.refl (d : Int) (a : DsuSocket × World) : Spares d a a := ⟨Nat.le_refl _, fun h _ => h, rfl, rfl⟩

theorem Spares.trans {a a' a'' : DsuSocket × World} (h : Spares d a a') (h' : Spares d a' a'') : Spares d a a'' where
  le := h.le.trans h'.le
  avoids ha he := by
    obtain ⟨hfirst, hsecond⟩ := same_between h.le h'.le he
    exact h'.avoids (h.avoids ha hfirst) hsecond
  stored := ⟨h'.stored.1.trans h.stored.1, h'.stored.2.trans h.stored.2⟩

theorem acceptConn_spares (d : Int) (r : DsuSocket) (w : World) : Spares d (r, w) (acceptConn K r w) := by
  refine ⟨(acceptConn_accepts r w d).ge.trans' (Nat.le_add_right _ _), fun ha he => ?_, ?_⟩
  · rw [acceptConn_accepts] at he
    have hne : (w.accept K r.comfd .internal).1 ≠ d := by
      intro h
      simp [h] at he
    unfold acceptConn World.accept4
    simp only
    split
    · exact ⟨ha.1, by simpa [dsuSocketAddFds, ha.2] using Ne.symm hne⟩
    · exact ha
  · unfold acceptConn
    simp only
    split <;> exact ⟨rfl, rfl⟩

theorem answerConn_spares (c d : Int) (r : DsuSocket) (w : World) : Spares d (r, w) (answerConn K c r w).2 := by
  have haccepts := answerConn_accepts (K := K) c d r w
  rcases answerConn_cases K r w c with ⟨-, -, hr, -⟩ | ⟨-, -, -, hr | hr⟩
  · refine ⟨haccepts.ge, fun ha _ => ?_, ?_⟩ <;> rw [hr]
    · exact ⟨ha.1, fun hmem => ha.2 (List.mem_of_mem_erase hmem)⟩
    · exact ⟨rfl, rfl⟩
  · refine ⟨haccepts.ge, fun ha _ => ?_, ?_⟩ <;> rw [hr]
    · exact ha
    · exact ⟨rfl, rfl⟩
  · refine ⟨haccepts.ge, fun ha _ => ?_, ?_⟩ <;> rw [hr]
    · exact ha
    · exact ⟨rfl, rfl⟩

theorem Handles.spares {a a' : DsuSocket × World} (h : Handles K a a') (d : Int) : Spares d a a' := by
  induction h with
  | refl => exact .refl d a
  | tail _ hs ih =>
    refine ih.trans ?_
    cases hs with
    | accept r w => exact acceptConn_spares d r w
    | answer hc => exact answerConn_spares _ d _ _
    | unlist epollfd hc => exact ⟨(World.accepts_epollCtl ..).ge, fun h _ => h, rfl, rfl⟩

/-- An event whose number the record avoids is passed over. -/
theorem dsuHandleEntryEpoll_avoided {e : Event} (h : Avoids r e.ev.data.fd) :
    dsuHandleEntryEpoll K epollfd e (r, w) = (e, r, w) := by
  have hskip : ∀ cs, e.ev.data.fd ∉ cs → dsuHandleComfdsEpoll K epollfd cs e r w = (e, r, w) := by
    intro cs hcs
    induction cs with
    | nil => rfl
    | cons c cs ih =>
      rw [List.mem_cons, not_or] at hcs
      rw [dsuHandleComfdsEpoll_cons, if_neg hcs.1]
      exact ih hcs.2
  unfold dsuHandleEntryEpoll
  simp only [if_neg h.1, hskip _ h.2]
  split <;> rfl

/-! ### Events of the program -/

/-- The kernel reports the event for a descriptor that is no bound socket, and that the program has registered. -/
def Event.foreign (binds : List DsuSocket) (e : Event) : Bool :=
  match e.origin with
  | some g => !g.internal && binds.all fun r => g.fd != r.fd && g.fd != r.shadowfd
  | none => false

theorem foreign_congr {e e' : Event} (h : e'.origin = e.origin) : e'.foreign binds = e.foreign binds := by
  unfold Event.foreign
  rw [h]

theorem dsuHandleEntryEpoll_origin (e : Event) (st : DsuSocket × World) :
    (dsuHandleEntryEpoll K epollfd e st).1.origin = e.origin :=
  (dsuHandleEntryEpoll_keeps epollfd e st.1 st.2).2.1

/-- The events of the program are left as they are, and make no difference to the record and the kernel's side. -/
theorem walk_entriesEpoll_foreign (es : List Event) (r : DsuSocket) (w : World)
    (h : ∀ e ∈ es, e.foreign binds = true → Avoids r e.ev.data.fd ∧
      (walk (dsuHandleEntryEpoll K epollfd) es (r, w)).2.2.accepts e.ev.data.fd = w.accepts e.ev.data.fd) :
    let a := walk (dsuHandleEntryEpoll K epollfd) es (r, w)
    a.1.filter (Event.foreign binds) = es.filter (Event.foreign binds) ∧
      walk (dsuHandleEntryEpoll K epollfd) (es.filter fun e => !e.foreign binds) (r, w) =
        (a.1.filter fun e => !e.foreign binds, a.2) := by
  induction es generalizing r w with
  | nil => exact ⟨rfl, rfl⟩
  | cons e es ih =>
    rw [walk_cons] at h ⊢
    simp only [List.mem_cons, forall_eq_or_imp] at h
    cases hf : e.foreign binds
    · have horigin : (dsuHandleEntryEpoll K epollfd e (r, w)).1.foreign binds = e.foreign binds :=
        foreign_congr (dsuHandleEntryEpoll_origin e (r, w))
      rw [hf] at horigin
      have hhead := dsuHandleEntryEpoll_handles K r w epollfd e
      have hrest := walk_entriesEpoll_handles K (dsuHandleEntryEpoll K epollfd e (r, w)).2.1
        (dsuHandleEntryEpoll K epollfd e (r, w)).2.2 epollfd es
      obtain ⟨hkept, hwalk⟩ := ih (dsuHandleEntryEpoll K epollfd e (r, w)).2.1
        (dsuHandleEntryEpoll K epollfd e (r, w)).2.2 fun e' he' hf' => by
          obtain ⟨havoids, haccepts⟩ := h.2 e' he' hf'
          have hspares := hhead.spares e'.ev.data.fd
          obtain ⟨hfirst, hsecond⟩ := same_between hspares.le (hrest.spares e'.ev.data.fd).le haccepts
          exact ⟨hspares.avoids havoids hfirst, hsecond⟩
      simp only [List.filter_cons, hf, horigin, Bool.false_eq_true, if_false, Bool.not_false, if_true, walk_cons]
      exact ⟨hkept, by rw [hwalk]⟩
    · obtain ⟨havoids, haccepts⟩ := h.1 hf
      rw [dsuHandleEntryEpoll_avoided havoids] at h ⊢
      obtain ⟨hkept, hwalk⟩ := ih r w h.2
      simp only [List.filter_cons, hf, Bool.not_true, Bool.false_eq_true, if_false, if_true, hkept]
      exact ⟨trivial, hwalk⟩

variable (K epollfd) in
/-- The pass over the records only accepts more. -/
theorem walk_handleConnEpoll_le (l : List DsuSocket) (es : List Event) (w : World) (d : Int) :
    w.accepts d ≤ (walk (dsuHandleConnEpoll K epollfd) l (es, w)).2.2.accepts d := by
  induction l generalizing es w with
  | nil => exact Nat.le_refl _
  | cons r l ih => exact ((dsuHandleConnEpoll_handles K r epollfd (es, w)).spares d).le.trans (ih _ _)

variable (K binds epollfd) in
theorem walk_handleConnEpoll_foreign (l : List DsuSocket) (es : List Event) (w : World)
    (h : ∀ e ∈ es, e.foreign binds = true → (∀ r ∈ l, Avoids r e.ev.data.fd) ∧
      (walk (dsuHandleConnEpoll K epollfd) l (es, w)).2.2.accepts e.ev.data.fd = w.accepts e.ev.data.fd) :
    let a := walk (dsuHandleConnEpoll K epollfd) l (es, w)
    a.2.1.filter (Event.foreign binds) = es.filter (Event.foreign binds) ∧
      walk (dsuHandleConnEpoll K epollfd) l (es.filter fun e => !e.foreign binds, w) =
        (a.1, a.2.1.filter (fun e => !e.foreign binds), a.2.2) ∧
      ∀ e ∈ es, e.foreign binds = true → ∀ r ∈ a.1, Avoids r e.ev.data.fd := by
  induction l generalizing es w with
  | nil => exact ⟨rfl, rfl, by simp⟩
  | cons r l ih =>
    have hr := dsuHandleConnEpoll_handles K r epollfd (es, w)
    have hle := fun d => walk_handleConnEpoll_le K epollfd l
      (dsuHandleConnEpoll K epollfd r (es, w)).2.1 (dsuHandleConnEpoll K epollfd r (es, w)).2.2 d
    have hsplit : ∀ e ∈ es, e.foreign binds = true → _ := fun e he hf =>
      same_between (hr.spares e.ev.data.fd).le (hle e.ev.data.fd) (h e he hf).2
    obtain ⟨hkept, hwalk⟩ := walk_entriesEpoll_foreign es r w fun e he hf =>
      ⟨(h e he hf).1 r List.mem_cons_self, (hsplit e he hf).1⟩
    have hmem : ∀ e, e.foreign binds = true → (e ∈ (dsuHandleConnEpoll K epollfd r (es, w)).2.1 ↔ e ∈ es) := by
      intro e hf
      have hfilter := (congrArg (e ∈ ·) hkept).to_iff
      simp only [List.mem_filter, hf, and_true] at hfilter
      exact hfilter
    obtain ⟨hkept', hwalk', havoids⟩ := ih (dsuHandleConnEpoll K epollfd r (es, w)).2.1
      (dsuHandleConnEpoll K epollfd r (es, w)).2.2 fun e he hf =>
        ⟨fun x hx => (h e ((hmem e hf).mp he) hf).1 x (List.mem_cons_of_mem _ hx), (hsplit e ((hmem e hf).mp he) hf).2⟩
    have hone : dsuHandleConnEpoll K epollfd r (es.filter fun e => !e.foreign binds, w) =
        ((dsuHandleConnEpoll K epollfd r (es, w)).1,
          (dsuHandleConnEpoll K epollfd r (es, w)).2.1.filter (fun e => !e.foreign binds),
          (dsuHandleConnEpoll K epollfd r (es, w)).2.2) := by
      unfold dsuHandleConnEpoll
      simp only [hwalk]
    simp only [walk_cons, hone, hwalk']
    refine ⟨hkept'.trans hkept, trivial, fun e he hf x hx => ?_⟩
    rcases List.mem_cons.mp hx with rfl | hx
    · exact (hr.spares e.ev.data.fd).avoids ((h e he hf).1 r List.mem_cons_self) (hsplit e he hf).1
    · exact havoids e ((hmem e hf).mpr he) hf x hx

/-! ### The way back to the program -/

/-- What the filter and the way back to the stored event read of a record. -/
def DsuSocket.told (r : DsuSocket) : (Int × List Int) × Int × EpollEvent := ((r.comfd, r.comfds), r.shadowfd, r.ev)

theorem unlockFd_told (r : DsuSocket) (w : World) (d : Int) :
    (unlockFd r w).1.told = r.told ∧ (unlockFd r w).2.accepts d = w.accepts d := by
  unfold unlockFd
  split
  · exact ⟨rfl, World.accepts_record d rfl⟩
  · exact ⟨rfl, rfl⟩

theorem dsuEpollOriginalfd_told (r : DsuSocket) (w : World) (d : Int) :
    (dsuEpollOriginalfd K epollfd r w).1.told = r.told ∧
      (dsuEpollOriginalfd K epollfd r w).2.accepts d = w.accepts d := by
  unfold dsuEpollOriginalfd
  split
  · exact ⟨rfl, (World.accepts_epollCtl ..).trans (World.accepts_epollCtl ..)⟩
  · exact ⟨rfl, rfl⟩

variable (K epollfd) in
/-- The pass over the records keeps what is stored for them. -/
theorem walk_handleConnEpoll_stored (l : List DsuSocket) (s : List Event × World) :
    (walk (dsuHandleConnEpoll K epollfd) l s).1.map (fun r => (r.shadowfd, r.ev)) = l.map fun r => (r.shadowfd, r.ev) := by
  refine walk_map (g := fun r : DsuSocket => (r.shadowfd, r.ev)) (fun r s => ?_) l s
  obtain ⟨hshadowfd, hev⟩ := ((dsuHandleConnEpoll_handles K r epollfd s).spares 0).stored
  exact Prod.ext hshadowfd hev

/-- The number is avoided by every record, and no event is stored under it. -/
def Opaque (binds : List DsuSocket) (d : Int) : Prop :=
  (∀ r ∈ binds, Avoids r d) ∧ ∀ r ∈ dsuSocketsSearchShadowfd binds d, r.ev.events = 0

instance (r : DsuSocket) (d : Int) : Decidable (Avoids r d) := inferInstanceAs (Decidable (_ ∧ _))

instance (binds : List DsuSocket) (d : Int) : Decidable (Opaque binds d) := inferInstanceAs (Decidable (_ ∧ _))

theorem not_internal_of_avoids (h : ∀ r ∈ binds, Avoids r d) : dsuIsInternalConn binds d = false := by
  rw [Bool.eq_false_iff, Ne, dsuIsInternalConn_iff]
  rintro ⟨r, hr, hd⟩
  rw [DsuSocket.watched, List.mem_append] at hd
  rcases hd with hd | hd
  · split at hd
    · exact (h r hr).1 (List.mem_singleton.mp hd)
    · cases hd
  · exact (h r hr).2 hd

theorem epollRestore_of_none {e : Event}
    (h : ∀ r ∈ dsuSocketsSearchShadowfd binds e.ev.data.fd, r.ev.events = 0) : epollRestore binds e = e := by
  unfold epollRestore
  split
  · rename_i r hr
    rw [if_neg (by simp [h r hr])]
  · rfl

/-- The search by `shadowfd` depends on what is stored alone. -/
theorem stored_of_map {l l' : List DsuSocket} (h : l'.map (fun r => (r.shadowfd, r.ev)) = l.map fun r => (r.shadowfd, r.ev))
    (hl : ∀ r ∈ dsuSocketsSearchShadowfd l d, r.ev.events = 0) : ∀ r ∈ dsuSocketsSearchShadowfd l' d, r.ev.events = 0 := by
  have hfind : ∀ l : List DsuSocket, (dsuSocketsSearchShadowfd l d).map (fun r => (r.shadowfd, r.ev)) =
      (l.map fun r => (r.shadowfd, r.ev)).find? (·.1 == d) := by
    intro l
    rw [List.find?_map]
    rfl
  intro r hr
  have hsame : (dsuSocketsSearchShadowfd l d).map (fun r => (r.shadowfd, r.ev)) = some (r.shadowfd, r.ev) := by
    rw [hfind, ← h, ← hfind, hr]
    rfl
  obtain ⟨x, hx, he⟩ := Option.map_eq_some_iff.mp hsame
  have hev : x.ev = r.ev := (Prod.ext_iff.mp he).2
  rw [← hev]
  exact hl x hx

variable (K epollfd) in
/-- After the handlers the records are only unlocked and registered again. -/
theorem restore_told (l : List DsuSocket) (w : World) (d : Int) :
    (walk (dsuEpollOriginalfd K epollfd) (walk dsuEpollUnlock l w).1 (walk dsuEpollUnlock l w).2).1.map DsuSocket.told =
        l.map DsuSocket.told ∧
      (walk (dsuEpollOriginalfd K epollfd) (walk dsuEpollUnlock l w).1 (walk dsuEpollUnlock l w).2).2.accepts d =
        w.accepts d :=
  ⟨(walk_map (fun r w => (dsuEpollOriginalfd_told r w d).1) _ _).trans (walk_map (fun r w => (unlockFd_told r w d).1) l w),
    (walk_state (g := fun w => w.accepts d) (fun r w => (dsuEpollOriginalfd_told r w d).2) _ _).trans
      (walk_state (g := fun w => w.accepts d) (fun r w => (unlockFd_told r w d).2) l w)⟩

theorem Opaque.of_told {l l' : List DsuSocket} (h : l'.map DsuSocket.told = l.map DsuSocket.told) (hd : Opaque l d) :
    Opaque l' d := by
  have hmap : l'.map (fun r => (r.shadowfd, r.ev)) = l.map fun r => (r.shadowfd, r.ev) := by
    have hsnd := congrArg (List.map Prod.snd) h
    rw [List.map_map, List.map_map] at hsnd
    exact hsnd
  refine ⟨fun r hr => ?_, stored_of_map hmap hd.2⟩
  have htold : r.told ∈ l.map DsuSocket.told := h ▸ List.mem_map_of_mem hr
  obtain ⟨x, hx, he⟩ := List.mem_map.mp htold
  simp only [DsuSocket.told, Prod.mk.injEq] at he
  have havoids := hd.1 x hx
  rw [Avoids, he.1.1, he.1.2] at havoids
  exact havoids

/-- The events of the program are returned as they were reported. -/
theorem dsuPostEpoll_foreign (es : List Event) (events : Nat → Event)
    (h : ∀ e ∈ es, e.foreign binds = true → Opaque p.binds e.ev.data.fd ∧
      (dsuPostEpoll K epollfd p es events).1.world.accepts e.ev.data.fd = p.world.accepts e.ev.data.fd) :
    (slice (dsuPostEpoll K epollfd p es events).2.2 0 (dsuPostEpoll K epollfd p es events).2.1).filter
      (Event.foreign binds) = es.filter (Event.foreign binds) := by
  have hpass := walk_handleConnEpoll_foreign K binds epollfd p.binds es p.world
  have hstored := walk_handleConnEpoll_stored K epollfd p.binds (es, p.world)
  unfold dsuPostEpoll at h ⊢
  simp only at h ⊢
  generalize walk (dsuHandleConnEpoll K epollfd) p.binds (es, p.world) = a at hpass hstored h ⊢
  have htold := restore_told K epollfd a.1 a.2.2
  generalize walk (dsuEpollOriginalfd K epollfd) (walk dsuEpollUnlock a.1 a.2.2).1 (walk dsuEpollUnlock a.1 a.2.2).2 = v
    at htold h ⊢
  obtain ⟨hkept, -, havoids⟩ := hpass fun e he hf => ⟨(h e he hf).1.1, (htold e.ev.data.fd).2 ▸ (h e he hf).2⟩
  have hhidden : ∀ e ∈ es, e.foreign binds = true → Opaque v.1 e.ev.data.fd := fun e he hf =>
    Opaque.of_told (htold 0).1 ⟨havoids e he hf, stored_of_map hstored (h e he hf).1.2⟩
  have hforeign : Event.foreign binds ∘ epollRestore v.1 = Event.foreign binds :=
    funext fun e => foreign_congr (epollRestore_origin e)
  rw [dsuEpollCorrectEvents_slice, List.filter_map, hforeign, List.filter_filter]
  have hall : (a.2.1.filter fun e => e.foreign binds && !dsuIsInternalConn v.1 e.ev.data.fd) =
      es.filter (Event.foreign binds) := by
    rw [← hkept]
    refine List.filter_congr fun e he => ?_
    cases hf : e.foreign binds
    · rfl
    · have hmem : e ∈ es := by
        have hfilter : e ∈ es.filter (Event.foreign binds) := hkept ▸ List.mem_filter.mpr ⟨he, hf⟩
        exact (List.mem_filter.mp hfilter).1
      rw [not_internal_of_avoids (hhidden e hmem hf).1]
      rfl
  rw [hall, List.map_congr_left (g := id) fun e he => ?_, List.map_id]
  obtain ⟨he, hf⟩ := List.mem_filter.mp he
  exact epollRestore_of_none (hhidden e he hf).2

/-! ### Runs -/

/-- The process in the kernel wait of an `epoll_wait`. -/
def Proc.inEpollWait (K : Kernel) (epfd : Int) (p : Proc) : Proc :=
  let p := dsuInitializeEvent K p
  let (binds, w) := dsuPreEpoll K epfd p.binds p.world
  { p with binds := binds, world := w }

/-- What a run is asked for: the number in the data of a reported event of the program is none under which a record
    serves other versions or has an event stored, and no handler of the call accepts a connection under it. -/
def PlainData (K : Kernel) (p : Proc) : Call → Prop
  | .epollWait epfd events maxevents timeout =>
    let wait := p.inEpollWait K epfd
    wait.exited = false → ∀ es ∈ (wait.world.epollWait K epfd maxevents timeout).1, ∀ e ∈ es,
      e.foreign wait.binds = true → Opaque wait.binds e.ev.data.fd ∧
        (epollWait K epfd events maxevents timeout p).1.world.accepts e.ev.data.fd = wait.world.accepts e.ev.data.fd
  | _ => True

/-- An `epoll_wait` returns the reported events of the program, each once and unchanged, and its handlers do what
    they would do without them. -/
def KeepsData (K : Kernel) (p : Proc) : Call → Prop
  | .epollWait epfd events maxevents timeout =>
    let wait := p.inEpollWait K epfd
    wait.exited = false → ∀ es ∈ (wait.world.epollWait K epfd maxevents timeout).1,
      (∃ (n : Nat) (out : Nat → Event), (epollWait K epfd events maxevents timeout p).2 = .returned n out ∧
        (slice out 0 n).filter (Event.foreign wait.binds) = es.filter (Event.foreign wait.binds)) ∧
      let served := fun es => walk (dsuHandleConnEpoll K epfd) wait.binds (es, wait.world.tick)
      let without := es.filter fun e => !e.foreign wait.binds
      (served es).1 = (served without).1 ∧ (served es).2.2 = (served without).2.2
  | _ => True

theorem epollWait_eq (p : Proc) {epfd : Int} (events : Nat → Event) {maxevents : Nat} {timeout : Option Nat}
    {es : List Event}
    (hexit : (p.inEpollWait K epfd).exited = false)
    (hes : ((p.inEpollWait K epfd).world.epollWait K epfd maxevents timeout).1 = some es) :
    let wait := p.inEpollWait K epfd
    let post := dsuPostEpoll K epfd { wait with world := wait.world.tick } es events
    epollWait K epfd events maxevents timeout p = (post.1, .returned post.2.1 post.2.2) := by
  unfold Proc.inEpollWait at hexit hes ⊢
  unfold epollWait epollRest
  simp only at hexit hes ⊢
  generalize dsuInitializeEvent K p = q at hexit hes ⊢
  generalize dsuPreEpoll K epfd q.binds q.world = v at hes ⊢
  rw [if_neg (by simp [hexit]), hes]
  rfl

theorem epollWait_keepsData {epfd : Int} {events : Nat → Event} {maxevents : Nat} {timeout : Option Nat}
    (h : PlainData K p (.epollWait epfd events maxevents timeout)) :
    KeepsData K p (.epollWait epfd events maxevents timeout) := by
  intro hexit es hes
  have hcall := epollWait_eq p events hexit hes
  have hplain : ∀ e ∈ es, e.foreign (p.inEpollWait K epfd).binds = true → _ := h hexit es hes
  generalize p.inEpollWait K epfd = wait at hcall hplain ⊢
  simp only [hcall] at hplain ⊢
  refine ⟨⟨_, _, rfl, dsuPostEpoll_foreign es events hplain⟩, ?_⟩
  -- Unlocking and registering again accept nothing.
  obtain ⟨-, hwalk, -⟩ := walk_handleConnEpoll_foreign K _ _ wait.binds es wait.world.tick fun e he hf =>
    ⟨(hplain e he hf).1.1, (restore_told _ _ _ _ e.ev.data.fd).2.symm.trans (hplain e he hf).2⟩
  rw [hwalk]
  exact ⟨rfl, rfl⟩

/-- In every run in which the data is plain the data of the program is kept. -/
theorem keepsData_of_plain {calls : List Call} (h : (procMachine K).Steps (PlainData K) p calls) :
    (procMachine K).Steps (KeepsData K) p calls := by
  refine Machine.Steps.imp (I := fun _ => True) (fun _ _ _ _ _ _ => trivial) (fun p call _ _ hc _ => ?_) trivial h
  cases call with
  | epollWait epfd events maxevents timeout => exact epollWait_keepsData hc
  | socket => trivial
  | bind => trivial
  | accept => trivial
  | close => trivial
  | epollCtl => trivial
  | select => trivial
  | ppoll => trivial

/-- The standard input is readable in every wait. -/
def inputKernel : Kernel :=
  { soloKernel with
    epollWait := fun w _ _ => some ((w.regs.filter (·.fd == 0)).map fun g => (g, epollin)) }

/-- The call of a program with room for four events. -/
def waitFour : Call := .epollWait 9 (fun _ => { ev := noEvent, origin := none }) 4 none

/-- A program that stores the number of the descriptor gets its event. -/
theorem input_returned : (procMachine inputKernel).Steps (KeepsData inputKernel) .loaded
    [.socket, .bind 3 8080, .epollCtl 9 .add 0 { events := epollin, data := { fd := 0, hi := 0 } }, waitFour] := by
  refine keepsData_of_plain fun _ hs => ?_
  cases hs
  refine ⟨trivial, fun _ hs => ?_⟩
  cases hs
  refine ⟨trivial, fun _ hs => ?_⟩
  cases hs
  refine ⟨trivial, fun _ hs => ?_⟩
  cases hs
  refine ⟨?_, trivial⟩
  intro _ es hes e he _
  cases hes
  cases List.mem_singleton.mp he
  exact ⟨by decide, rfl⟩

/-- A program stores an index: 4, which is also the number of `comfd`. Its event is lost, and a connection of
    another version is accepted. -/
theorem index_taken_for_comfd : ∃ p q out, (procMachine inputKernel).run .loaded [.socket, .bind 3 8080,
      .epollCtl 9 .add 0 { events := epollin, data := { fd := 4, hi := 7 } }] = some p ∧
    p.binds.map (·.comfd) = [4] ∧
    epollWait inputKernel 9 (fun _ => { ev := noEvent, origin := none }) 4 none p = (q, .returned 0 out) ∧
    q.binds.map (·.comfds) = [[5]] ∧ ¬KeepsData inputKernel p waitFour := by
  refine ⟨_, _, _, rfl, rfl, rfl, rfl, fun h => ?_⟩
  obtain ⟨⟨n, out, hout, hslice⟩, -⟩ := h rfl _ rfl
  cases hout
  exact absurd (congrArg List.length hslice) (by decide)

end OpenDSU
