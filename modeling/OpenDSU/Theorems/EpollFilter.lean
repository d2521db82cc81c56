import OpenDSU.Theorems.Names

/-! Whether `epoll_wait` hides the internal descriptors from the program.

The library registers them with the program's own epoll instance, and drops their events afterwards by the
number in the event and the lists of the records as the handlers have left them. -/

open Relation

namespace OpenDSU

variable {K : Kernel} {p q : Proc} {w w' w'' : World} {binds : List DsuSocket}

/-! ### Connections that `dsu_recv` finds closed -/

/-- How often `dsu_recv` has returned 0 on a descriptor. -/
def World.closings (w : World) (d : Int) : Nat := w.log.count (.recv d .closed)

theorem World.closings_record (d : Int) {e : Sys} (h : e ≠ .recv d .closed) :
    (w.record e).closings d = w.closings d := by
  simp [World.closings, World.record, h]

theorem World.epollCtl_closings (epfd : Int) (op : EpollOp) (fd : Int) (ev : EpollEvent) (internal : Bool) (d : Int) :
    (w.epollCtl K epfd op fd ev internal).2.closings d = w.closings d := by
  unfold epollCtl
  split
  · rfl
  · split
    · rfl
    · cases op <;> simp only <;> split <;> rfl

theorem World.close_closings (fd d : Int) : (w.close K fd).closings d = w.closings d := by
  unfold close
  split
  · exact closings_record d (by simp)
  · simp [closings]

theorem dsuWriteFd_closings (fd sendfd port d : Int) : (dsuWriteFd K w fd sendfd port).closings d = w.closings d := by
  unfold dsuWriteFd
  split
  · exact World.closings_record d (by simp)
  · rfl

theorem acceptConn_closings (r : DsuSocket) (d : Int) : (acceptConn K r w).2.closings d = w.closings d := by
  have hlog : (w.accept K r.comfd .internal).2.closings d = w.closings d := by
    unfold World.accept World.allot
    repeat' split
    all_goals rfl
  exact (World.closings_record d (by simp)).trans hlog

theorem answerConn_closings (c d : Int) (r : DsuSocket) : (answerConn K c r w).2.2.closings d =
    w.closings d + if (answerConn K c r w).1 = true ∧ c = d then 1 else 0 := by
  have hopen : (w.recv K c).1 ≠ .closed → (w.recv K c).2.closings d = w.closings d := by
    intro hne
    exact World.closings_record d fun h => hne (Sys.recv.inj h).2
  rw [answerConn_eq]
  cases hres : (w.recv K c).1 with
  | closed =>
    have hlog : (w.recv K c).2.log = w.log ++ [.recv c .closed] := by
      rw [← hres]
      rfl
    simp only [World.close_closings, true_and]
    unfold World.closings
    rw [hlog, List.count_append, List.count_singleton]
    congr 1
    by_cases hc : c = d <;> simp [hc]
  | again => simpa using hopen (by simp [hres])
  | error => simpa [dsuWriteFd_closings] using hopen (by simp [hres])
  | request =>
    have hstatus : ∀ (w : World) (port port' : Nat) (st : Status),
        ((w.waitStatus K port).2.setStatus port' st).closings d = w.closings d := fun _ _ _ _ => rfl
    simpa [dsuWriteFd_closings, hstatus] using hopen (by simp [hres])

/-! ### The handlers -/

/-- A handler keeps the internal descriptors of a record but those that it finds closed. -/
structure Keeps (r : DsuSocket) (w : World) (r' : DsuSocket) (w' : World) : Prop where
  le : ∀ d, w.closings d ≤ w'.closings d
  watched : ∀ d ∈ r.watched, w'.closings d = w.closings d → d ∈ r'.watched

theorem Keeps.refl (r : DsuSocket) (w : World) : Keeps r w r w := ⟨fun _ => Nat.le_refl _, fun _ hd _ => hd⟩

/-- What has not happened in the end has not happened in between. -/
theorem same_between {a b c : Nat} (h : a ≤ b) (h' : b ≤ c) (he : c = a) : b = a ∧ c = b := by
  omega

theorem Keeps.trans {r r' r'' : DsuSocket} (h : Keeps r w r' w') (h' : Keeps r' w' r'' w'') : Keeps r w r'' w'' where
  le d := (h.le d).trans (h'.le d)
  watched d hd he := by
    obtain ⟨hfirst, hsecond⟩ := same_between (h.le d) (h'.le d) he
    exact h'.watched d (h.watched d hd hfirst) hsecond

theorem Keeps.of_world {r : DsuSocket} (h : ∀ d, w'.closings d = w.closings d) : Keeps r w r w' :=
  ⟨fun d => (h d).ge, fun _ hd _ => hd⟩

theorem acceptConn_keeps (r : DsuSocket) (w : World) : Keeps r w (acceptConn K r w).1 (acceptConn K r w).2 := by
  refine ⟨fun d => (acceptConn_closings r d).ge, fun d hd _ => ?_⟩
  unfold acceptConn
  simp only
  split
  · rw [DsuSocket.watched, List.mem_append] at hd ⊢
    exact hd.imp_right (List.mem_append_left _)
  · exact hd

theorem answerConn_keeps (c : Int) (r : DsuSocket) (w : World) :
    Keeps r w (answerConn K c r w).2.1 (answerConn K c r w).2.2 := by
  refine ⟨fun d => (answerConn_closings c d r).ge.trans' (Nat.le_add_right _ _), fun d hd he => ?_⟩
  rw [answerConn_closings] at he
  rcases answerConn_cases K r w c with ⟨-, hclosed, hr, -⟩ | ⟨-, -, -, hr | hr⟩ <;> rw [hr]
  · have hne : d ≠ c := by
      rintro rfl
      simp [hclosed] at he
    rw [DsuSocket.watched, List.mem_append] at hd ⊢
    exact hd.imp_right (List.mem_erase_of_ne hne).mpr
  · exact hd
  · exact hd

/-- The events after a handler: each is one of those before, with its number unless its connection was found
    closed. -/
def Stem (w : World) (w' : World) (e e' : Event) : Prop :=
  e'.origin = e.origin ∧ (w'.closings e.ev.data.fd = w.closings e.ev.data.fd → e'.ev.data.fd = e.ev.data.fd)

theorem Stem.refl (w : World) (e : Event) : Stem w w e e := ⟨rfl, fun _ => rfl⟩

theorem Stem.trans {e e' e'' : Event} (hle : ∀ d, w.closings d ≤ w'.closings d)
    (hle' : ∀ d, w'.closings d ≤ w''.closings d) (h : Stem w w' e e') (h' : Stem w' w'' e' e'') : Stem w w'' e e'' := by
  refine ⟨h'.1.trans h.1, fun he => ?_⟩
  obtain ⟨hfirst, hsecond⟩ := same_between (hle _) (hle' _) he
  have hfd := h.2 hfirst
  rw [← hfd] at hsecond
  exact (h'.2 hsecond).trans hfd

theorem dsuHandleComfdsEpoll_keeps (epollfd : Int) (cs : List Int) (e : Event) (r : DsuSocket) (w : World) :
    let a := dsuHandleComfdsEpoll K epollfd cs e r w
    Keeps r w a.2.1 a.2.2 ∧ Stem w a.2.2 e a.1 := by
  induction cs generalizing e r w with
  | nil => exact ⟨.refl r w, .refl w e⟩
  | cons c cs ih =>
    rw [dsuHandleComfdsEpoll_cons]
    by_cases hc : e.ev.data.fd = c
    · have hanswer := answerConn_keeps (K := K) c r w
      have hcount := answerConn_closings (K := K) (w := w) c c r
      simp only [if_pos hc]
      by_cases hclosed : (answerConn K c r w).1 = true
      · simp only [if_pos hclosed]
        -- The event of the connection has lost its number, and the count has gone up.
        have hctl : ∀ d, _ = (answerConn K c r w).2.2.closings d :=
          fun d => World.epollCtl_closings (K := K) epollfd .del c noEvent true d
        obtain ⟨hkeeps, hstem⟩ := ih { e with ev := { e.ev with data := { e.ev.data with fd := -1 } } }
          (answerConn K c r w).2.1 ((answerConn K c r w).2.2.epollCtl K epollfd .del c noEvent true).2
        have hall := hanswer.trans ((Keeps.of_world hctl).trans hkeeps)
        refine ⟨hall, hstem.1, fun he => ?_⟩
        have hle := hkeeps.le c
        rw [hctl c, hcount, hclosed] at hle
        rw [hc] at he
        simp only [true_and, if_true] at hle
        omega
      · simp only [if_neg hclosed]
        obtain ⟨hkeeps, hstem⟩ := ih e (answerConn K c r w).2.1 (answerConn K c r w).2.2
        exact ⟨hanswer.trans hkeeps, Stem.trans hanswer.le hkeeps.le ⟨rfl, fun _ => rfl⟩ hstem⟩
    · simp only [if_neg hc]
      exact ih e r w

theorem dsuHandleEntryEpoll_keeps (epollfd : Int) (e : Event) (r : DsuSocket) (w : World) :
    let a := dsuHandleEntryEpoll K epollfd e (r, w)
    Keeps r w a.2.1 a.2.2 ∧ Stem w a.2.2 e a.1 := by
  unfold dsuHandleEntryEpoll
  simp only
  split
  · exact ⟨.refl r w, .refl w e⟩
  · split
    · exact ⟨acceptConn_keeps r w, rfl, fun _ => rfl⟩
    · exact dsuHandleComfdsEpoll_keeps epollfd r.comfds e r w

/-- Each event after the handlers is one of those before, and each of those is there. -/
structure Stems (w w' : World) (es es' : List Event) : Prop where
  back : ∀ e' ∈ es', ∃ e ∈ es, Stem w w' e e'
  forth : ∀ e ∈ es, ∃ e' ∈ es', Stem w w' e e'

theorem Stems.refl (w : World) (es : List Event) : Stems w w es es :=
  ⟨fun e he => ⟨e, he, .refl w e⟩, fun e he => ⟨e, he, .refl w e⟩⟩

section Stems
variable {es es' es'' : List Event} (hle : ∀ d, w.closings d ≤ w'.closings d)
  (hle' : ∀ d, w'.closings d ≤ w''.closings d)
include hle hle'

theorem Stems.trans (h : Stems w w' es es') (h' : Stems w' w'' es' es'') : Stems w w'' es es'' := by
  refine ⟨fun e'' he'' => ?_, fun e he => ?_⟩
  · obtain ⟨e', he', hs'⟩ := h'.back e'' he''
    obtain ⟨e, he, hs⟩ := h.back e' he'
    exact ⟨e, he, hs.trans hle hle' hs'⟩
  · obtain ⟨e', he', hs⟩ := h.forth e he
    obtain ⟨e'', he'', hs'⟩ := h'.forth e' he'
    exact ⟨e'', he'', hs.trans hle hle' hs'⟩

theorem Stems.cons {e e' : Event} (h : Stem w w' e e') (h' : Stems w' w'' es es') :
    Stems w w'' (e :: es) (e' :: es') := by
  refine ⟨fun x hx => ?_, fun x hx => ?_⟩
  · rcases List.mem_cons.mp hx with rfl | hx
    · exact ⟨e, List.mem_cons_self, h.trans hle hle' ⟨rfl, fun _ => rfl⟩⟩
    · obtain ⟨y, hy, hs⟩ := h'.back x hx
      exact ⟨y, List.mem_cons_of_mem _ hy, Stem.trans hle hle' ⟨rfl, fun _ => rfl⟩ hs⟩
  · rcases List.mem_cons.mp hx with rfl | hx
    · exact ⟨e', List.mem_cons_self, h.trans hle hle' ⟨rfl, fun _ => rfl⟩⟩
    · obtain ⟨y, hy, hs⟩ := h'.forth x hx
      exact ⟨y, List.mem_cons_of_mem _ hy, Stem.trans hle hle' ⟨rfl, fun _ => rfl⟩ hs⟩

end Stems

theorem walk_entriesEpoll_keeps (epollfd : Int) (es : List Event) (r : DsuSocket) (w : World) :
    let a := walk (dsuHandleEntryEpoll K epollfd) es (r, w)
    Keeps r w a.2.1 a.2.2 ∧ Stems w a.2.2 es a.1 := by
  induction es generalizing r w with
  | nil => exact ⟨.refl r w, .refl w []⟩
  | cons x es ih =>
    obtain ⟨hx, hstem⟩ := dsuHandleEntryEpoll_keeps (K := K) epollfd x r w
    obtain ⟨hrest, hstems⟩ := ih (dsuHandleEntryEpoll K epollfd x (r, w)).2.1 (dsuHandleEntryEpoll K epollfd x (r, w)).2.2
    exact ⟨hx.trans hrest, .cons hx.le hrest.le hstem hstems⟩

theorem walk_handleConnEpoll_keeps (epollfd : Int) (l : List DsuSocket) (es : List Event) (w : World) :
    let a := walk (dsuHandleConnEpoll K epollfd) l (es, w)
    (∀ d, w.closings d ≤ a.2.2.closings d) ∧ Stems w a.2.2 es a.2.1 ∧
    ∀ d, Watched l d → a.2.2.closings d = w.closings d → Watched a.1 d := by
  induction l generalizing es w with
  | nil => exact ⟨fun _ => Nat.le_refl _, .refl w es, fun _ hd _ => hd⟩
  | cons r l ih =>
    have hone := walk_entriesEpoll_keeps (K := K) epollfd es r w
    change _ ∧ _ at hone
    obtain ⟨hr, hstem⟩ := hone
    obtain ⟨hle, hstems, hwatched⟩ := ih (dsuHandleConnEpoll K epollfd r (es, w)).2.1
      (dsuHandleConnEpoll K epollfd r (es, w)).2.2
    refine ⟨fun d => (hr.le d).trans (hle d), .trans hr.le hle hstem hstems, fun d hd he => ?_⟩
    obtain ⟨hfirst, hsecond⟩ := same_between (hr.le d) (hle d) he
    obtain ⟨x, hx, hd⟩ := hd
    rcases List.mem_cons.mp hx with rfl | hx
    · exact ⟨_, List.mem_cons_self, hr.watched d hd hfirst⟩
    · obtain ⟨y, hy, hd⟩ := hwatched d ⟨x, hx, hd⟩ hsecond
      exact ⟨y, List.mem_cons_of_mem _ hy, hd⟩

/-! ### What is left of the events -/

theorem dsuIsInternalConn_iff {d : Int} : dsuIsInternalConn binds d = true ↔ Watched binds d := by
  simp only [dsuIsInternalConn, dsuSocketsSearchFds, DsuSocket.listens, Bool.or_eq_true, List.find?_isSome,
    Bool.and_eq_true, beq_iff_eq, List.contains_iff_mem, Watched, DsuSocket.watched, List.mem_append]
  constructor
  · rintro (⟨r, hr, hd, hm⟩ | ⟨r, hr, hd⟩)
    · exact ⟨r, hr, Or.inl (by simp [hm, hd])⟩
    · exact ⟨r, hr, Or.inr hd⟩
  · rintro ⟨r, hr, hd | hd⟩
    · split at hd
      · rename_i hm
        exact Or.inl ⟨r, hr, (List.mem_singleton.mp hd).symm, hm⟩
      · cases hd
    · exact Or.inr ⟨r, hr, hd⟩

theorem epollRestore_origin (e : Event) : (epollRestore binds e).origin = e.origin := by
  unfold epollRestore
  split
  · split <;> rfl
  · rfl

/-- What is returned: the events that are not dropped, in their order. -/
theorem dsuEpollCorrectEvents_slice (es : List Event) (events : Nat → Event) :
    let a := dsuEpollCorrectEvents binds es.length (storeEvents es events)
    slice a.2 0 a.1 = (es.filter fun e => !dsuIsInternalConn binds e.ev.data.fd).map (epollRestore binds) := by
  have hmove : ∀ a b : Event, id ((fun _ b => b) a b) = id b := fun _ _ => rfl
  have hdrop : ∀ e : Event, dsuIsInternalConn binds e.ev.data.fd = dsuIsInternalConn binds (id e).ev.data.fd :=
    fun _ => rfl
  have hkeep : ∀ e : Event, id (epollRestore binds e) = epollRestore binds (id e) := fun _ => rfl
  have h := compact_spec 0 id (fun e => dsuIsInternalConn binds e.ev.data.fd) (epollRestore binds) hmove hdrop hkeep
    0 es.length (storeEvents es events)
  have hes : slice (storeEvents es events) 0 es.length = es := slice_getD es events
  simp only [Function.id_comp, hes, Nat.zero_add] at h
  obtain ⟨hlen, hslice, -⟩ := h
  unfold dsuEpollCorrectEvents
  simp only
  rw [← hslice, hlen]

/-- An event that is returned is one that was reported and is not dropped. -/
theorem dsuEpollCorrectEvents_mem {es : List Event} {events : Nat → Event} {i : Nat}
    (hi : i < (dsuEpollCorrectEvents binds es.length (storeEvents es events)).1) :
    ∃ e ∈ es, ¬Watched binds e.ev.data.fd ∧
      ((dsuEpollCorrectEvents binds es.length (storeEvents es events)).2 i).origin = e.origin := by
  have hmem : (dsuEpollCorrectEvents binds es.length (storeEvents es events)).2 i ∈
      (es.filter fun e => !dsuIsInternalConn binds e.ev.data.fd).map (epollRestore binds) := by
    rw [← dsuEpollCorrectEvents_slice es events]
    exact mem_slice.mpr ⟨i, Nat.zero_le i, by rwa [Nat.zero_add], rfl⟩
  obtain ⟨e, he, heq⟩ := List.mem_map.mp hmem
  obtain ⟨he, hne⟩ := List.mem_filter.mp he
  refine ⟨e, he, fun hw => ?_, ?_⟩
  · rw [dsuIsInternalConn_iff.mpr hw] at hne
    cases hne
  · rw [← heq, epollRestore_origin]

/-- Unlocking and registering again neither change what is watched nor what was found closed. -/
theorem restore_watched (epollfd : Int) (l : List DsuSocket) (w : World) :
    let a := walk (dsuEpollOriginalfd K epollfd) (walk dsuEpollUnlock l w).1 (walk dsuEpollUnlock l w).2
    a.1.map DsuSocket.watched = l.map DsuSocket.watched ∧ ∀ d, a.2.closings d = w.closings d := by
  have hunlock : ∀ r w d, (unlockFd r w).1.watched = r.watched ∧ (unlockFd r w).2.closings d = w.closings d := by
    intro r w d
    unfold unlockFd
    split
    · exact ⟨rfl, World.closings_record d (by simp)⟩
    · exact ⟨rfl, rfl⟩
  have horiginal : ∀ r w d, (dsuEpollOriginalfd K epollfd r w).1.watched = r.watched ∧
      (dsuEpollOriginalfd K epollfd r w).2.closings d = w.closings d := by
    intro r w d
    unfold dsuEpollOriginalfd
    split
    · exact ⟨rfl, (World.epollCtl_closings ..).trans (World.epollCtl_closings ..)⟩
    · exact ⟨rfl, rfl⟩
  refine ⟨(walk_map (fun r w => (horiginal r w 0).1) _ _).trans (walk_map (fun r w => (hunlock r w 0).1) l w), fun d => ?_⟩
  exact (walk_state (g := fun w => w.closings d) (fun r w => (horiginal r w d).2) _ _).trans
    (walk_state (g := fun w => w.closings d) (fun r w => (hunlock r w d).2) l w)

/-- A returned event was reported with a number that no record watched, or whose connection was found closed. -/
theorem dsuPostEpoll_mem {epollfd : Int} {es : List Event} {events : Nat → Event} {i : Nat}
    (hi : i < (dsuPostEpoll K epollfd p es events).2.1) :
    ∃ e ∈ es, ((dsuPostEpoll K epollfd p es events).2.2 i).origin = e.origin ∧
      (Watched p.binds e.ev.data.fd →
        (dsuPostEpoll K epollfd p es events).1.world.closings e.ev.data.fd ≠ p.world.closings e.ev.data.fd) := by
  have hkeeps := walk_handleConnEpoll_keeps (K := K) epollfd p.binds es p.world
  change _ ∧ _ at hkeeps
  obtain ⟨hle, hstems, hwatched⟩ := hkeeps
  unfold dsuPostEpoll at hi ⊢
  simp only at hi ⊢
  generalize walk (dsuHandleConnEpoll K epollfd) p.binds (es, p.world) = a at hle hstems hwatched hi ⊢
  obtain ⟨hmap, hcount⟩ := restore_watched (K := K) epollfd a.1 a.2.2
  obtain ⟨e', he', hnot, horigin⟩ := dsuEpollCorrectEvents_mem hi
  obtain ⟨e, he, hstem⟩ := hstems.back e' he'
  refine ⟨e, he, horigin.trans hstem.1, fun hw hsame => hnot ?_⟩
  rw [hcount] at hsame
  rw [hstem.2 hsame]
  exact (hwatched _ hw hsame).of_map hmap

/-! ### Registrations -/

theorem World.epollWait_reports {epfd : Int} {maxevents : Nat} {timeout : Option Nat} {es : List Event} {e : Event}
    (h : (w.epollWait K epfd maxevents timeout).1 = some es) (he : e ∈ es) :
    ∃ g ∈ w.regs, e.origin = some g ∧ e.ev.data = g.ev.data := by
  obtain ⟨ready, -, rfl⟩ := Option.map_eq_some_iff.mp h
  obtain ⟨g, hg, rfl⟩ := List.mem_map.mp he
  have hready := List.pwFilter_subset _ (List.mem_of_mem_take hg)
  have hregs : g.1 ∈ w.regs := by
    have := (List.mem_filter.mp hready).2
    simp only [decide_eq_true_eq] at this
    exact this.1
  exact ⟨g.1, hregs, rfl, rfl⟩

theorem Changes.named {c c' : List DsuSocket × World} (h : Changes c c') (hc : c.2.Named) : c'.2.Named := by
  refine Changes.invariant (I := fun _ w => w.Named) (fun _ _ _ hw => hw.named) (fun _ _ _ _ _ _ he => ?_) h hc
  cases he with
  | quiet _ hw => exact hw.named
  | quit _ _ hw => exact hw.named
  | accepted _ _ hw => exact hw.named
  | closed _ _ _ hw => exact hw.named
  | locked _ hw => exact hw.named
  | unlocked _ _ hw => exact hw.named

/-- The registration that the kernel finds for a descriptor. -/
def World.Finds (w : World) (epfd fd : Int) (g : Reg) : Prop :=
  g ∈ w.regs ∧ g.epfd = epfd ∧ g.fd = fd ∧ ∃ file, w.fdt fd = some file ∧ g.file = file.id

theorem World.epollCtl_named {epfd : Int} {op : EpollOp} {fd : Int} {ev : EpollEvent}
    (h : op = .mod → ∀ g, w.Finds epfd fd g → g.internal = false) (hw : w.Named) :
    (w.epollCtl K epfd op fd ev false).2.Named := by
  cases op with
  | add => exact (w.same_epollCtl K epfd (by simp)).named hw
  | del => exact (w.same_epollCtl K epfd (by simp)).named hw
  | mod =>
    unfold epollCtl
    split
    · exact hw
    · rename_i file hfile
      split
      · exact hw
      · simp only
        split
        · intro g hg hi
          obtain ⟨g', hg', rfl⟩ := List.mem_map.mp hg
          split at hi
          · rename_i hhere
            simp only [Bool.and_eq_true, beq_iff_eq] at hhere
            have := h rfl g' ⟨hg', hhere.1.1, hhere.1.2, file, hfile, hhere.2⟩
            rw [this] at hi
            cases hi
          · rename_i hhere
            rw [if_neg hhere]
            exact hw g' hg' hi
        · exact hw

theorem World.allot_named {kind : Kind} (hw : w.Named) : (w.allot K kind).2.Named := by
  rcases w.allot_cases K kind with ⟨-, h⟩ | ⟨fd, -, h⟩
  · exact h.named hw
  · exact h.named hw

theorem dsuReadFd_named {fd recvfd port : Int} {kind : Kind} (hw : w.Named) :
    (dsuReadFd K w fd recvfd port kind).2.2.Named := by
  rcases dsuReadFd_cases K w fd recvfd port kind with ⟨-, h⟩ | h
  · exact h.named hw
  · exact h.named hw

theorem dsuInheritFd_named {s : DsuSocket} (hw : w.Named) : (dsuInheritFd K s w).2.2.Named := by
  rw [dsuInheritFd_eq]
  split
  · exact (World.closes_close _ K s.comfd).named (dsuReadFd_named (dsuReadFd_named hw))
  · exact hw

/-! ### Runs -/

/-- What a run is asked for: the program does not change a registration that the library made for an internal
    descriptor, and an `epoll_wait` reports such a registration only while a record watches the descriptor,
    with `dsu_recv` not finding the connection closed in the call. -/
def CleanCall (K : Kernel) (p : Proc) : Call → Prop
  | .epollCtl epfd op fd _ => op = .mod → ∀ g, p.world.Finds epfd (dsuShadowfd p.binds fd) g → g.internal = false
  | .epollWait epfd events maxevents timeout =>
    let start := dsuInitializeEvent K p
    let wait := dsuPreEpoll K epfd start.binds start.world
    start.exited = false → ∀ es ∈ (wait.2.epollWait K epfd maxevents timeout).1, ∀ e ∈ es, ∀ g ∈ e.origin,
      g.internal = true → Watched wait.1 g.fd ∧
        (epollWait K epfd events maxevents timeout p).1.world.closings g.fd = wait.2.closings g.fd
  | _ => True

/-- An `epoll_wait` returns no event of an internal descriptor. -/
def HidesInternal (K : Kernel) (p : Proc) : Call → Prop
  | .epollWait epfd events maxevents timeout =>
    ∀ n out, (epollWait K epfd events maxevents timeout p).2 = .returned n out →
      ∀ i : Nat, i < n → ∀ g ∈ (out i).origin, g.internal = false
  | _ => True

variable {call : Call}

theorem bind_named (sockfd : Int) (port : Nat) (hw : p.world.Named) : (bind K p sockfd port).2.world.Named := by
  have hallot : (p.world.allot K .com).2.tick.Named := World.allot_named hw
  rcases bind_cases K p sockfd port with ⟨-, hq⟩ | ⟨s, -, ⟨-, hq⟩ | ⟨-, hq⟩⟩
  · rw [hq]
    exact hw
  · exact hq.world.named hallot
  · exact hq.world.named (dsuInheritFd_named hallot)

theorem socket_named (hw : p.world.Named) : (OpenDSU.socket K p).2.world.Named := by
  unfold OpenDSU.socket
  simp only
  split
  · exact World.allot_named hw
  · exact World.allot_named hw

theorem accept_named (sockfd : Int) (hw : p.world.Named) : (accept K p sockfd).2.world.Named := by
  have haccept : ∀ fd kind, (p.world.accept K fd kind).2.Named := by
    intro fd kind
    rcases p.world.accept_cases K fd kind with ⟨-, h⟩ | ⟨c, -, h⟩
    · exact h.named hw
    · exact h.named hw
  unfold accept
  simp only
  generalize hsession : p.world.accept K (dsuShadowfd p.binds sockfd) _ = session
  split
  · exact hsession ▸ haccept _ _
  · exact hsession ▸ haccept _ _

theorem close_named (sockfd : Int) (hw : p.world.Named) : (OpenDSU.close K p sockfd).world.Named := by
  have hclose := (p.world.closes_close K sockfd).named hw
  unfold OpenDSU.close
  repeat' split
  all_goals exact hclose

theorem epollCtl_named {epfd fd : Int} {op : EpollOp} (event : EpollEvent)
    (hmod : op = .mod → ∀ g, p.world.Finds epfd (dsuShadowfd p.binds fd) g → g.internal = false)
    (hw : p.world.Named) : (epollCtl K p epfd op fd event).2.world.Named := by
  unfold dsuShadowfd at hmod
  unfold epollCtl
  cases hfind : dsuSocketsSearchFd p.binds fd with
  | none =>
    rw [hfind] at hmod
    exact World.epollCtl_named hmod hw
  | some r =>
    rw [hfind] at hmod
    exact World.epollCtl_named hmod hw

theorem step_named (hw : p.world.Named) (hc : CleanCall K p call) (hs : p.step K call = some q) : q.world.Named := by
  cases step_takes hs with
  | socket => exact socket_named hw
  | bind sockfd port => exact bind_named sockfd port hw
  | accept sockfd => exact accept_named sockfd hw
  | close sockfd => exact close_named sockfd hw
  | epollCtl epfd op fd event => exact epollCtl_named event hc hw
  | event _ he => exact he.changes.named hw

theorem epollWait_hides {epfd : Int} {events : Nat → Event} {maxevents : Nat} {timeout : Option Nat}
    (hw : p.world.Named) (hc : CleanCall K p (.epollWait epfd events maxevents timeout)) :
    HidesInternal K p (.epollWait epfd events maxevents timeout) := by
  intro n out hout i hi g hg
  unfold CleanCall epollWait epollRest at hc
  unfold epollWait epollRest at hout
  simp only at hc hout
  have hnamed : (dsuPreEpoll K epfd (dsuInitializeEvent K p).binds (dsuInitializeEvent K p).world).2.Named :=
    (dsuPreEpoll_changes K epfd _ _).named ((dsuInitializeEvent_evolves K p).changes.named hw)
  generalize dsuInitializeEvent K p = start at hc hout hnamed
  split at hout
  · cases hout
  · rename_i hexit
    rw [if_neg hexit] at hc
    generalize dsuPreEpoll K epfd start.binds start.world = wait at hc hout hnamed
    split at hout
    · rename_i es hes
      cases hout
      obtain ⟨e, he, horigin, hnot⟩ := dsuPostEpoll_mem (Int.ofNat_lt.mp hi)
      obtain ⟨g', hg', he', hdata⟩ := World.epollWait_reports hes he
      rw [horigin, he'] at hg
      cases hg
      by_contra hinternal
      have hint : g.internal = true := by simpa using hinternal
      have hclean := hc (by simpa using hexit) es hes e he g he' hint
      simp only [hes] at hclean
      obtain ⟨hwatched, hsame⟩ := hclean
      rw [hdata, hnamed g hg' hint] at hnot
      exact hnot hwatched hsame
    · cases hout
      exact absurd hi (by omega)

/-- Every internal registration is ready in every wait. -/
def trafficKernel : Kernel :=
  { soloKernel with
    epollWait := fun w _ _ => some ((w.regs.filter (·.internal)).map fun g => (g, epollin)) }

/-- The same, with the other version closing its connection. -/
def leavingKernel : Kernel := { trafficKernel with recv := fun _ _ => .closed }

end OpenDSU
