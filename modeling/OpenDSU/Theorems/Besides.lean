import OpenDSU.Theorems.Interest
import OpenDSU.Theorems.Numbers

/-! What the library does besides one bound socket: the descriptors of the socket stay what they are, and so does
what the epoll instances have for them.

Only a registration that is changed under one of the descriptors counts, and a registration that goes because its
file is closed: no other descriptor has the file of one of these. -/

open Relation

namespace OpenDSU

variable {K : Kernel} {own : List Int} {r r' : DsuSocket} {w w' w'' : World} {l : List DsuSocket}

/-! ### The kernel's side -/

/-- The descriptors are open, and no other descriptor has one of their files. -/
structure World.Private (own : List Int) (w : World) : Prop where
  isOpen : ∀ d ∈ own, w.isOpen d = true
  old : ∀ d file, w.fdt d = some file → file.id < w.files
  apart : ∀ d ∈ own, ∀ c, c ∉ own → ∀ f g, w.fdt d = some f → w.fdt c = some g → f.id ≠ g.id

/-- Between the two nothing happens to the descriptors. -/
structure World.Keeps (own : List Int) (w w' : World) : Prop where
  isPrivate : w'.Private own
  fdt : ∀ d ∈ own, w'.fdt d = w.fdt d
  interest : ∀ e, ∀ d ∈ own, w'.interest e d = w.interest e d

theorem World.Private.refl (h : w.Private own) : w.Keeps own w := ⟨h, fun _ _ => rfl, fun _ _ _ => rfl⟩

theorem World.Keeps.trans (h : w.Keeps own w') (h' : w'.Keeps own w'') : w.Keeps own w'' where
  isPrivate := h'.isPrivate
  fdt d hd := (h'.fdt d hd).trans (h.fdt d hd)
  interest e d hd := (h'.interest e d hd).trans (h.interest e d hd)

theorem World.Private.congr (h : w.Private own) (hfdt : w'.fdt = w.fdt) (hfiles : w'.files = w.files) :
    w'.Private own where
  isOpen d hd := (World.isOpen_congr hfdt d).trans (h.isOpen d hd)
  old d file hfile := hfiles ▸ h.old d file (hfdt ▸ hfile)
  apart d hd c hc f g hf hg := h.apart d hd c hc f g (hfdt ▸ hf) (hfdt ▸ hg)

/-- The descriptors and the interest lists stay. -/
theorem World.Private.stay (h : w.Private own) (hfdt : w'.fdt = w.fdt) (hfiles : w'.files = w.files)
    (hregs : w'.regs = w.regs) : w.Keeps own w' where
  isPrivate := h.congr hfdt hfiles
  fdt d _ := congrFun hfdt d
  interest e d _ := World.interest_congr hregs hfdt e d

theorem World.Private.same (h : w.Private own) (hw : w.Same w') (hregs : w'.regs = w.regs) : w.Keeps own w' :=
  h.stay hw.fdt hw.files hregs

theorem World.Private.tick (h : w.Private own) : w.Keeps own w.tick := h.same w.same_tick rfl

/-- What an instance has for a descriptor, by the descriptor's file. -/
theorem World.interest_eq_of_fdt (hfdt : w'.fdt = fun d => if d = c then f else w.fdt d) (hregs : w'.regs = w.regs)
    {e d : Int} (hd : d ≠ c) : w'.interest e d = w.interest e d := by
  have hfile : w'.fdt d = w.fdt d := by
    rw [hfdt]
    exact if_neg hd
  rw [World.interest_eq, World.interest_eq, hregs]
  congr 2
  funext g
  unfold World.finds
  rw [hfile]

/-- A new descriptor has a new file. -/
theorem World.Opens.old {c : Int} {kind : Kind} (hw : w.Opens c kind w')
    (h : ∀ d file, w.fdt d = some file → file.id < w.files) (d : Int) (file : File) (hfile : w'.fdt d = some file) :
    file.id < w'.files := by
  rw [hw.files]
  simp only [hw.fdt] at hfile
  split at hfile
  · cases hfile
    exact Nat.lt_succ_self _
  · exact (h d file hfile).trans (Nat.lt_succ_self _)

/-- And it is none of them. -/
theorem World.Private.opens {c : Int} {kind : Kind} (h : w.Private own) (hw : w.Opens c kind w')
    (hregs : w'.regs = w.regs) : c ∉ own ∧ w.Keeps own w' := by
  have hc : c ∉ own := by
    intro hc
    have hopen := h.isOpen c hc
    rw [World.isOpen, hw.free] at hopen
    cases hopen
  have hne : ∀ d ∈ own, d ≠ c := fun d hd he => hc (he ▸ hd)
  have hfdt : ∀ d ∈ own, w'.fdt d = w.fdt d := by
    intro d hd
    rw [hw.fdt]
    exact if_neg (hne d hd)
  refine ⟨hc, ⟨fun d hd => ?_, hw.old h.old, fun d hd b hb f g hf hg => ?_⟩, hfdt,
    fun e d hd => World.interest_eq_of_fdt hw.fdt hregs (hne d hd)⟩
  · rw [World.isOpen, hfdt d hd]
    exact h.isOpen d hd
  · rw [hfdt d hd] at hf
    simp only [hw.fdt] at hg
    split at hg
    · cases hg
      exact (h.old d f hf).ne
    · exact h.apart d hd b hb f g hf hg

/-- The registrations that go with a file are not theirs. -/
theorem World.Private.close {c : Int} (h : w.Private own) (hc : c ∉ own) : w.Keeps own (w.close K c) := by
  have hw := w.closes_close K c
  have hne : ∀ d ∈ own, d ≠ c := fun d hd he => hc (he ▸ hd)
  have hfdt : ∀ d ∈ own, (w.close K c).fdt d = w.fdt d := by
    intro d hd
    rw [hw.fdt]
    exact if_neg (hne d hd)
  have hold : ∀ d file, (w.close K c).fdt d = some file → w.fdt d = some file := by
    intro d file hfile
    simp only [hw.fdt] at hfile
    exact (Option.ite_none_left_eq_some.mp hfile).2
  refine ⟨⟨fun d hd => ?_, fun d file hfile => ?_, fun d hd b hb f g hf hg => ?_⟩, hfdt, fun e d hd => ?_⟩
  · rw [World.isOpen, hfdt d hd]
    exact h.isOpen d hd
  · rw [hw.files]
    exact h.old d file (hold d file hfile)
  · exact h.apart d hd b hb f g (hold d f hf) (hold b g hg)
  · have hfinds : (w.close K c).finds e d = w.finds e d := by
      funext g
      unfold World.finds
      rw [hfdt d hd]
    rw [World.interest_eq, World.interest_eq, hfinds]
    congr 1
    unfold World.close
    cases hfile : w.fdt c with
    | none => rfl
    | some file =>
      simp only
      split
      · rfl
      -- What goes has the file of the closed descriptor, and what is found has one of theirs.
      rw [List.filter_filter]
      refine List.filter_congr fun g _ => ?_
      cases hg : w.finds e d g
      · rfl
      obtain ⟨own', hown⟩ := Option.isSome_iff_exists.mp (h.isOpen d hd)
      simp only [World.finds, hown, Option.map_some, Bool.and_eq_true, beq_iff_eq, Option.some.injEq] at hg
      have := h.apart d hd c hc own' file hown hfile
      simp [hg.2, this]

/-- An operation on an interest list changes nothing but the list. -/
theorem World.epollCtl_rest (w : World) (epfd : Int) (op : EpollOp) (c : Int) (ev : EpollEvent) (internal : Bool) :
    ∃ regs, (w.epollCtl K epfd op c ev internal).2 = { w.tick with regs := regs } := by
  unfold epollCtl
  split
  · exact ⟨w.regs, rfl⟩
  · split
    · exact ⟨w.regs, rfl⟩
    · cases op <;> simp only <;> split <;> exact ⟨_, rfl⟩

theorem World.Private.afterCtl (h : w.Private own) (epfd : Int) (op : EpollOp) (c : Int) (ev : EpollEvent)
    (internal : Bool) : (w.epollCtl K epfd op c ev internal).2.Private own := by
  obtain ⟨regs, hrest⟩ := w.epollCtl_rest (K := K) epfd op c ev internal
  rw [hrest]
  exact h.congr rfl rfl

theorem World.Private.epollCtl (hK : ∀ w, K.epollCtl w = true) (h : w.Private own) (epfd : Int) (op : EpollOp) {c : Int}
    (ev : EpollEvent) (internal : Bool) (hc : c ∉ own) : w.Keeps own (w.epollCtl K epfd op c ev internal).2 := by
  refine ⟨h.afterCtl epfd op c ev internal, fun d _ => congrFun (w.epollCtl_fdt K epfd op c ev internal) d,
    fun e d hd => ?_⟩
  by_cases hopen : w.isOpen c = true
  · rw [(World.epollCtl_interest hK epfd op ev internal hopen).2, if_neg]
    rintro ⟨-, rfl⟩
    exact hc hd
  · have hnone : w.fdt c = none := by simpa [World.isOpen] using hopen
    unfold World.epollCtl
    rw [hnone]
    rfl

/-! ### One record -/

/-- The record watches none of the descriptors. -/
def DsuSocket.Clear (own : List Int) (r : DsuSocket) : Prop := ∀ c ∈ r.watched, c ∉ own

/-- What an `epoll_wait` reads of a record. -/
def DsuSocket.stored (r : DsuSocket) : Int × Int × EpollEvent := (r.fd, r.shadowfd, r.ev)

/-- What a pass leaves of a record, besides the socket. -/
structure Beside (own : List Int) (a a' : DsuSocket × World) : Prop where
  clear : a'.1.Clear own
  stored : a'.1.stored = a.1.stored
  keeps : a.2.Keeps own a'.2

theorem Beside.trans {a b c : DsuSocket × World} (h : Beside own a b) (h' : Beside own b c) : Beside own a c :=
  ⟨h'.clear, h'.stored.trans h.stored, h.keeps.trans h'.keeps⟩

theorem Beside.refl (hr : r.Clear own) (h : w.Private own) : Beside own (r, w) (r, w) := ⟨hr, rfl, h.refl⟩

theorem dsuWriteFd_regs (w : World) (fd sendfd port : Int) : (dsuWriteFd K w fd sendfd port).regs = w.regs := by
  unfold dsuWriteFd
  split <;> rfl

/-- Only closing the connection changes a registration. -/
theorem answerConn_regs {c : Int} (h : (w.recv K c).1 ≠ .closed) : (answerConn K c r w).2.2.regs = w.regs := by
  rw [answerConn_eq]
  cases hres : (w.recv K c).1 with
  | closed => exact absurd hres h
  | again => rfl
  | error => exact (dsuWriteFd_regs _ _ _ _).trans (dsuWriteFd_regs _ _ _ _)
  | request => exact (dsuWriteFd_regs _ _ _ _).trans (dsuWriteFd_regs _ _ _ _)

theorem acceptConn_regs : (acceptConn K r w).2.regs = w.regs := by
  unfold acceptConn World.accept4 World.accept World.allot
  simp only
  repeat' split
  all_goals rfl

section Passes
variable (hr : r.Clear own) (h : w.Private own)
include hr h

theorem acceptConn_beside : Beside own (r, w) (acceptConn K r w) := by
  change Beside own (r, w) ((acceptConn K r w).1, (acceptConn K r w).2)
  rcases acceptConn_cases K r w with ⟨hsame, hw⟩ | ⟨c, hnew, hw⟩
  · rw [hsame]
    exact ⟨hr, rfl, h.same hw acceptConn_regs⟩
  · obtain ⟨hc, hkeeps⟩ := h.opens hw acceptConn_regs
    rw [hnew]
    refine ⟨fun d hd => ?_, rfl, hkeeps⟩
    have hd : d ∈ r.watched ∨ d = c := by simpa [DsuSocket.watched, or_assoc] using hd
    rcases hd with hd | rfl
    · exact hr d hd
    · exact hc

theorem answerConn_beside {c : Int} (hc : c ∈ r.comfds) : Beside own (r, w) (answerConn K c r w).2 := by
  have hown : c ∉ own := hr c (List.mem_append_right _ hc)
  change Beside own (r, w) ((answerConn K c r w).2.1, (answerConn K c r w).2.2)
  rcases answerConn_cases K r w c with ⟨hres, -, hgone, -⟩ | ⟨hres, -, hw, hsame⟩
  · -- The closed connection is one that the record watches.
    have hworld : (answerConn K c r w).2.2 = (w.recv K c).2.close K c := by
      rw [answerConn_eq, hres]
    have hrecv := h.same (w.same_recv K c) rfl
    rw [hgone, hworld]
    refine ⟨fun d hd => hr d ?_, rfl, hrecv.trans (hrecv.isPrivate.close hown)⟩
    rcases List.mem_append.mp hd with hd | hd
    · exact List.mem_append_left _ hd
    · exact List.mem_append_right _ (List.mem_of_mem_erase hd)
  · have hkeeps := h.same hw (answerConn_regs hres)
    rcases hsame with hsame | hsame <;> rw [hsame] <;> exact ⟨hr, rfl, hkeeps⟩

theorem unlockFd_beside : Beside own (r, w) (unlockFd r w) := by
  unfold unlockFd
  split
  · exact ⟨hr, rfl, h.stay rfl rfl rfl⟩
  · exact .refl hr h

omit hr in
theorem tryMonitor_keeps (transfer : Bool) : w.Keeps own (tryMonitor K r transfer w).2.2 := by
  unfold tryMonitor World.trywait
  simp only
  repeat' split
  all_goals exact h.stay rfl rfl rfl

theorem dsuConfigureSocket_beside : Beside own (r, w) (dsuConfigureSocket K r w) := ⟨hr, rfl, h.tick⟩

theorem dsuMonitorFd_beside (pgid : Int) : Beside own (r, w) (dsuMonitorFd K pgid r w) := by
  have hstatus : w.Keeps own (w.waitStatus K r.port).2 := h.stay rfl rfl rfl
  unfold dsuMonitorFd
  simp only
  split
  · rcases monitorSection_cases pgid ((w.waitStatus K r.port).2.status r.port) r with
      ⟨hq, he⟩ | ⟨hq, -, he⟩ | ⟨hq, -, he⟩ <;> rw [he, hq]
    · have hcomfd : r.comfd ∉ own := hr r.comfd (by simp [DsuSocket.watched, (quits_iff.mp hq).2.1])
      have hclosed := hstatus.trans (hstatus.isPrivate.close (K := K) hcomfd)
      refine ⟨fun d hd => hr d (List.mem_append_right _ ?_), rfl, hclosed.trans (hclosed.isPrivate.stay rfl rfl rfl)⟩
      simpa [DsuSocket.watched, quitSection] using hd
    · exact ⟨hr, rfl, hstatus.trans (hstatus.isPrivate.stay rfl rfl rfl)⟩
    · exact ⟨hr, rfl, hstatus.trans (hstatus.isPrivate.stay rfl rfl rfl)⟩
  · exact ⟨hr, rfl, hstatus⟩

/-! ### The passes of `select` -/

theorem dsuPreSelect_beside {s : SelectPass} (hs : s.world = w) :
    Beside own (r, w) ((dsuPreSelect K r s).1, (dsuPreSelect K r s).2.world) := by
  subst hs
  have htry := tryMonitor_keeps (K := K) (r := r) h s.transfer
  unfold dsuPreSelect
  split
  · simp only
    split
    · cases (tryMonitor K r s.transfer s.world).1 <;> exact ⟨hr, rfl, htry⟩
    · exact .refl hr h
  · exact .refl hr h

theorem dsuPostSelect_beside {s : SelectPass} (hs : s.world = w) :
    Beside own (r, w) ((dsuPostSelect r s).1, (dsuPostSelect r s).2.world) := by
  subst hs
  unfold dsuPostSelect
  simp only
  split <;> exact unlockFd_beside hr h

end Passes

/-! ### The handlers -/

theorem HandlerStep.beside {a a' : DsuSocket × World} (hs : HandlerStep K a a') (hr : a.1.Clear own)
    (h : a.2.Private own) : Beside own a a' := by
  cases hs with
  | accept r w => exact acceptConn_beside hr h
  | answer hc => exact answerConn_beside hr h hc
  | @unlist r w epollfd c hc =>
    have hnone : w.fdt c = none := by simpa [World.isOpen] using hc
    have hrefused : (w.epollCtl K epollfd .del c noEvent true).2 = w.tick := by
      unfold World.epollCtl
      rw [hnone]
    rw [hrefused]
    exact ⟨hr, rfl, h.tick⟩

theorem Handles.beside {a a' : DsuSocket × World} (hs : Handles K a a') (hr : a.1.Clear own) (h : a.2.Private own) :
    Beside own a a' := by
  induction hs with
  | refl => exact .refl hr h
  | tail _ hs ih => exact ih.trans (hs.beside ih.clear ih.keeps.isPrivate)

/-! ### The passes of `epoll_wait` -/

section Epoll
variable (hK : ∀ w, K.epollCtl w = true)
include hK

theorem foldl_epollListen_keeps (epfd : Int) {cs : List Int} (hcs : ∀ c ∈ cs, c ∉ own) (h : w.Private own) :
    w.Keeps own (cs.foldl (epollListen K epfd) w) := by
  induction cs generalizing w with
  | nil => exact h.refl
  | cons c cs ih =>
    obtain ⟨hc, hcs⟩ := List.forall_mem_cons.mp hcs
    have hlisten : w.Keeps own (epollListen K epfd w c) := h.epollCtl hK epfd .add _ true hc
    exact hlisten.trans (ih hcs hlisten.isPrivate)

theorem dsuEpollInternalConn_beside (epfd : Int) (hr : r.Clear own) (h : w.Private own) :
    Beside own (r, w) (dsuEpollInternalConn K epfd r w) := by
  have hfold : ∀ {w : World}, w.Private own → w.Keeps own (r.comfds.foldl (epollListen K epfd) w) := fun h =>
    foldl_epollListen_keeps hK epfd (fun c hc => hr c (List.mem_append_right _ hc)) h
  refine ⟨hr, rfl, ?_⟩
  unfold dsuEpollInternalConn
  split
  · rename_i hm
    have hcomfd : r.comfd ∉ own := hr r.comfd (by simp [DsuSocket.watched, hm])
    have hlisten : w.Keeps own (epollListen K epfd w r.comfd) := h.epollCtl hK epfd .add _ true hcomfd
    exact hlisten.trans (hfold hlisten.isPrivate)
  · exact hfold h

/-- The record of another socket. -/
theorem dsuEpollShadowfd_beside (epfd : Int) (hr : r.Clear own) (hfd : r.fd ∉ own) (hshadowfd : r.shadowfd ∉ own)
    (h : w.Private own) : Beside own (r, w) (dsuEpollShadowfd K epfd r w) := by
  unfold dsuEpollShadowfd
  have hdel : w.Keeps own (if r.ev.events ≠ 0 then (w.epollCtl K epfd .del r.fd noEvent false).2 else w) := by
    split
    · exact h.epollCtl hK epfd .del noEvent false hfd
    · exact h.refl
  generalize (if r.ev.events ≠ 0 then (w.epollCtl K epfd .del r.fd noEvent false).2 else w) = w₁ at hdel ⊢
  simp only
  split
  · have htry := hdel.trans (tryMonitor_keeps (K := K) (r := r) hdel.isPrivate false)
    generalize tryMonitor K r false w₁ = access at htry ⊢
    have hadd := htry.trans (htry.isPrivate.epollCtl hK epfd .add { r.ev with data := { r.ev.data with fd := r.shadowfd } }
      false hshadowfd)
    split
    · exact ⟨hr, rfl, htry⟩
    · exact ⟨hr, rfl, hadd⟩
    · exact ⟨hr, rfl, hadd⟩
  · exact ⟨hr, rfl, hdel⟩

theorem dsuEpollOriginalfd_beside (epfd : Int) (hr : r.Clear own) (hfd : r.fd ∉ own) (hshadowfd : r.shadowfd ∉ own)
    (h : w.Private own) : Beside own (r, w) (dsuEpollOriginalfd K epfd r w) := by
  unfold dsuEpollOriginalfd
  split
  · have hdel := h.epollCtl hK epfd .del noEvent false hshadowfd
    exact ⟨hr, rfl, hdel.trans (hdel.isPrivate.epollCtl hK epfd .add r.ev false hfd)⟩
  · exact .refl hr h

end Epoll

end OpenDSU
