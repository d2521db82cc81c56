import OpenDSU.Registry
import OpenDSU.Theorems.Calls

/-! What the calls do to the registrations of a bound socket. -/

namespace OpenDSU

variable {K : Kernel} {r : DsuSocket} {w w' : World} {epfd d : Int} {op : EpollOp} {ev : EpollEvent} {internal : Bool}

/-! ### The interest list -/

/-- The registration is the one of the descriptor. -/
def World.finds (w : World) (epfd fd : Int) (g : Reg) : Bool :=
  g.epfd == epfd && g.fd == fd && some g.file == (w.fdt fd).map File.id

theorem World.interest_eq (w : World) (epfd fd : Int) :
    w.interest epfd fd = (w.regs.filter (w.finds epfd fd)).map Reg.ev :=
  rfl

theorem World.interest_congr (hregs : w'.regs = w.regs) (hfdt : w'.fdt = w.fdt) (epfd fd : Int) :
    w'.interest epfd fd = w.interest epfd fd := by
  unfold interest
  rw [hregs, hfdt]

theorem World.finds_unique {e c : Int} {g : Reg} (h : w.finds epfd d g = true) (h' : w.finds e c g = true) :
    e = epfd ∧ c = d := by
  simp only [finds, Bool.and_eq_true, beq_iff_eq] at h h'
  exact ⟨h'.1.1.symm.trans h.1.1, h'.1.2.symm.trans h.1.2⟩

theorem World.interest_add {file : File} (hfile : w.fdt d = some file) (e c : Int) :
    ({ w.tick with regs := w.regs ++ [⟨epfd, d, file.id, ev, internal⟩] } : World).interest e c =
      w.interest e c ++ if e = epfd ∧ c = d then [ev] else [] := by
  have hnew : w.finds e c ⟨epfd, d, file.id, ev, internal⟩ = decide (e = epfd ∧ c = d) := by
    rw [Bool.eq_iff_iff]
    simp only [finds, Bool.and_eq_true, beq_iff_eq, decide_eq_true_eq]
    constructor
    · rintro ⟨⟨rfl, rfl⟩, -⟩
      exact ⟨rfl, rfl⟩
    · rintro ⟨rfl, rfl⟩
      simp [hfile]
  change ((w.regs ++ [_]).filter (w.finds e c)).map Reg.ev = _
  rw [List.filter_append, List.map_append, ← interest_eq]
  congr 1
  by_cases h : e = epfd ∧ c = d
  · rw [if_pos h, List.filter_cons, hnew]
    simp [h]
  · rw [if_neg h, List.filter_cons, hnew]
    simp [h]

theorem World.interest_mod (e c : Int) :
    ({ w.tick with regs := w.regs.map fun g => if w.finds epfd d g then { g with ev := ev } else g } : World).interest e c =
      if e = epfd ∧ c = d then (w.interest epfd d).map fun _ => ev else w.interest e c := by
  have hkeep : w.finds e c ∘ (fun g => if w.finds epfd d g then { g with ev := ev } else g) = w.finds e c := by
    funext g
    simp only [Function.comp]
    split <;> rfl
  change ((w.regs.map _).filter (w.finds e c)).map Reg.ev = _
  rw [List.filter_map, hkeep, List.map_map, interest_eq, interest_eq]
  split
  · rename_i h
    rw [h.1, h.2, List.map_map]
    exact List.map_congr_left fun g hg => by simp [(List.mem_filter.mp hg).2]
  · rename_i hne
    refine List.map_congr_left fun g hg => ?_
    have hnot : w.finds epfd d g = false := by
      by_contra h
      exact hne (finds_unique (by simpa using h) (List.mem_filter.mp hg).2)
    simp [hnot]

theorem World.interest_del (e c : Int) :
    ({ w.tick with regs := w.regs.filter fun g => !w.finds epfd d g } : World).interest e c =
      if e = epfd ∧ c = d then [] else w.interest e c := by
  change ((w.regs.filter _).filter (w.finds e c)).map Reg.ev = _
  rw [List.filter_filter]
  split
  · rename_i h
    rw [h.1, h.2]
    simp
  · rename_i hne
    rw [interest_eq]
    congr 1
    refine List.filter_congr fun g _ => ?_
    cases hg : w.finds e c g
    · rfl
    · have hnot : w.finds epfd d g = false := by
        by_contra h
        exact hne (finds_unique (by simpa using h) hg)
      simp [hnot]

theorem plainSet_of_refused {l : List EpollEvent} (h : plainOk op l = false) : plainSet op ev l = l := by
  cases op with
  | add =>
    simp only [plainOk] at h
    simp [plainSet, h]
  | mod =>
    have hnil : l = [] := by simpa [plainOk] using h
    rw [hnil]
    rfl
  | del =>
    have hnil : l = [] := by simpa [plainOk] using h
    rw [hnil]
    rfl

/-- epoll grants what plain epoll grants, and changes no other registration. -/
theorem World.epollCtl_interest (hK : ∀ w, K.epollCtl w = true) (epfd : Int) (op : EpollOp) (ev : EpollEvent)
    (internal : Bool) (hopen : w.isOpen d = true) :
    (w.epollCtl K epfd op d ev internal).1 = plainOk op (w.interest epfd d) ∧
    ∀ e c, (w.epollCtl K epfd op d ev internal).2.interest e c =
      if e = epfd ∧ c = d then plainSet op ev (w.interest epfd d) else w.interest e c := by
  obtain ⟨file, hfile⟩ := Option.isSome_iff_exists.mp hopen
  have hhere : ∀ g : Reg, (g.epfd == epfd && g.fd == d && g.file == file.id) = w.finds epfd d g := by
    intro g
    simp [finds, hfile]
  have hknown : (w.regs.any fun g => w.finds epfd d g) = !(w.interest epfd d).isEmpty := by
    rw [interest_eq, Bool.eq_iff_iff]
    simp [List.filter_eq_nil_iff]
  have hrefused : plainOk op (w.interest epfd d) = false → ∀ e c, w.tick.interest e c =
      if e = epfd ∧ c = d then plainSet op ev (w.interest epfd d) else w.interest e c := by
    intro h e c
    rw [plainSet_of_refused h]
    split
    · rename_i he
      rw [he.1, he.2]
      rfl
    · rfl
  unfold epollCtl
  simp only [hfile, hK, hhere, hknown, Bool.not_true, Bool.false_eq_true, if_false]
  cases op with
  | add =>
    cases hempty : (w.interest epfd d).isEmpty
    · exact ⟨by simp [plainOk, hempty], hrefused (by simp [plainOk, hempty])⟩
    · refine ⟨by simp [plainOk, hempty], fun e c => ?_⟩
      refine (interest_add hfile e c).trans ?_
      split
      · rename_i h
        rw [h.1, h.2, List.isEmpty_iff.mp hempty]
        rfl
      · exact List.append_nil _
  | mod =>
    cases hempty : (w.interest epfd d).isEmpty
    · exact ⟨by simp [plainOk, hempty], interest_mod⟩
    · exact ⟨by simp [plainOk, hempty], hrefused (by simp [plainOk, hempty])⟩
  | del =>
    cases hempty : (w.interest epfd d).isEmpty
    · exact ⟨by simp [plainOk, hempty], interest_del⟩
    · exact ⟨by simp [plainOk, hempty], hrefused (by simp [plainOk, hempty])⟩

/-- `epoll_ctl` on a bound socket is the operation on its first record. -/
theorem epollCtl_bound {p : Proc} {fd : Int} (h : dsuSocketsSearchFd p.binds fd = some r) :
    let a := epollCtlBound K epfd op ev r p.world
    ∃ pre post, p.binds = pre ++ r :: post ∧
      epollCtl K p epfd op fd ev = (a.1, { p with binds := pre ++ a.2.1 :: post, world := a.2.2 }) := by
  obtain ⟨pre, post, hbinds, hupdate⟩ :=
    dsuSocketsUpdate_of_find h ({ · with ev := if op = .del then noEvent else ev })
  refine ⟨pre, post, hbinds, ?_⟩
  unfold epollCtl
  rw [h]
  simp only [hupdate]
  rfl

/-! ### The passes of `epoll_wait` -/

theorem tryMonitor_interest (transfer : Bool) (e c : Int) :
    (tryMonitor K r transfer w).2.2.fdt = w.fdt ∧
      (tryMonitor K r transfer w).2.2.interest e c = w.interest e c := by
  have hregs : (tryMonitor K r transfer w).2.2.regs = w.regs ∧ (tryMonitor K r transfer w).2.2.fdt = w.fdt := by
    unfold tryMonitor World.trywait
    simp only
    repeat' split
    all_goals exact ⟨rfl, rfl⟩
  exact ⟨hregs.2, World.interest_congr hregs.1 hregs.2 e c⟩

theorem unlockFd_interest (e c : Int) :
    (unlockFd r w).2.fdt = w.fdt ∧ (unlockFd r w).2.interest e c = w.interest e c := by
  unfold unlockFd
  split <;> exact ⟨rfl, rfl⟩

/-- A record without a stored event is passed over. -/
theorem dsuEpollShadowfd_none (h : r.ev.events = 0) : dsuEpollShadowfd K epfd r w = (r, w) := by
  simp [dsuEpollShadowfd, h]

theorem dsuEpollOriginalfd_none (h : r.ev.events = 0) : dsuEpollOriginalfd K epfd r w = (r, w) := by
  simp [dsuEpollOriginalfd, h]

/-- What the wait asks for replaces the registration under `fd`. -/
theorem dsuEpollShadowfd_interest (hK : ∀ w, K.epollCtl w = true) (epfd : Int) (hfd : w.isOpen r.fd = true)
    (hshadowfd : w.isOpen r.shadowfd = true) (hev : r.ev.events ≠ 0) :
    let a := dsuEpollShadowfd K epfd r w
    (a.1 = r ∨ a.1 = { r with locked := true }) ∧ a.2.fdt = w.fdt ∧
      (∀ e c, e ≠ epfd → a.2.interest e c = w.interest e c) ∧
      (r.fd ≠ r.shadowfd → a.2.interest epfd r.fd = []) := by
  obtain ⟨-, hdel⟩ := World.epollCtl_interest hK epfd .del noEvent false hfd
  have hfdt := w.epollCtl_fdt K epfd .del r.fd noEvent false
  unfold dsuEpollShadowfd
  simp only [hev, ne_eq, not_false_eq_true, if_true, decide_true, Bool.and_true]
  generalize (w.epollCtl K epfd .del r.fd noEvent false).2 = w₁ at hdel hfdt ⊢
  have hgone : (∀ e c, e ≠ epfd → w₁.interest e c = w.interest e c) ∧ w₁.interest epfd r.fd = [] := by
    refine ⟨fun e c he => ?_, ?_⟩
    · rw [hdel, if_neg (fun h => he h.1)]
    · rw [hdel, if_pos ⟨rfl, rfl⟩]
      rfl
  split
  · have htry := tryMonitor_interest (K := K) (r := r) (w := w₁) false
    generalize tryMonitor K r false w₁ = access at htry ⊢
    have hopen : access.2.2.isOpen r.shadowfd = true := by
      rw [World.isOpen_congr ((htry 0 0).1.trans hfdt)]
      exact hshadowfd
    have hadd := World.epollCtl_interest hK epfd .add { r.ev with data := { r.ev.data with fd := r.shadowfd } } false hopen
    have hfdt' := access.2.2.epollCtl_fdt K epfd .add r.shadowfd
      { r.ev with data := { r.ev.data with fd := r.shadowfd } } false
    have hasked : (∀ e c, e ≠ epfd → (access.2.2.epollCtl K epfd .add r.shadowfd
          { r.ev with data := { r.ev.data with fd := r.shadowfd } } false).2.interest e c = w.interest e c) ∧
        (r.fd ≠ r.shadowfd → (access.2.2.epollCtl K epfd .add r.shadowfd
          { r.ev with data := { r.ev.data with fd := r.shadowfd } } false).2.interest epfd r.fd = []) := by
      refine ⟨fun e c he => ?_, fun hne => ?_⟩
      · rw [hadd.2, if_neg (fun h => he h.1), (htry e c).2, hgone.1 e c he]
      · rw [hadd.2, if_neg (fun h => hne h.2), (htry epfd r.fd).2, hgone.2]
    split
    · exact ⟨Or.inl rfl, (htry 0 0).1.trans hfdt, fun e c he => (htry e c).2.trans (hgone.1 e c he),
        fun _ => (htry epfd r.fd).2.trans hgone.2⟩
    · exact ⟨Or.inl rfl, hfdt'.trans ((htry 0 0).1.trans hfdt), hasked⟩
    · exact ⟨Or.inr rfl, hfdt'.trans ((htry 0 0).1.trans hfdt), hasked⟩
  · exact ⟨Or.inl rfl, hfdt, hgone.1, fun _ => hgone.2⟩

/-- Restoring leaves the stored event under `fd`, where nothing was left, and nothing under another `shadowfd`. -/
theorem dsuEpollOriginalfd_interest (hK : ∀ w, K.epollCtl w = true) (epfd : Int) (hfd : w.isOpen r.fd = true)
    (hshadowfd : w.isOpen r.shadowfd = true) (hev : r.ev.events ≠ 0)
    (hnone : r.fd ≠ r.shadowfd → w.interest epfd r.fd = []) :
    let a := dsuEpollOriginalfd K epfd r w
    a.1 = r ∧ a.2.fdt = w.fdt ∧ (∀ e c, e ≠ epfd → a.2.interest e c = w.interest e c) ∧
      a.2.interest epfd r.fd = [r.ev] ∧ (r.fd ≠ r.shadowfd → a.2.interest epfd r.shadowfd = []) := by
  obtain ⟨-, hdel⟩ := World.epollCtl_interest hK epfd .del noEvent false hshadowfd
  have hfdt := w.epollCtl_fdt K epfd .del r.shadowfd noEvent false
  unfold dsuEpollOriginalfd
  simp only [hev, ne_eq, not_false_eq_true, if_true]
  generalize (w.epollCtl K epfd .del r.shadowfd noEvent false).2 = w₁ at hdel hfdt ⊢
  have hopen : w₁.isOpen r.fd = true := by
    rw [World.isOpen_congr hfdt]
    exact hfd
  have hadd := World.epollCtl_interest hK epfd .add r.ev false hopen
  have hempty : w₁.interest epfd r.fd = [] := by
    rw [hdel]
    split
    · rfl
    · rename_i hne
      exact hnone fun h => hne ⟨rfl, h⟩
  refine ⟨trivial, (w₁.epollCtl_fdt K epfd .add r.fd r.ev false).trans hfdt, fun e c he => ?_, ?_, fun hne => ?_⟩
  · rw [hadd.2, if_neg (fun h => he h.1), hdel, if_neg (fun h => he h.1)]
  · rw [hadd.2, if_pos ⟨rfl, rfl⟩, hempty]
    rfl
  · rw [hadd.2, if_neg (fun h => hne h.2.symm), hdel, if_pos ⟨rfl, rfl⟩]
    rfl

/-! ### Steps -/

namespace Registry

variable {s t u : Registry}

/-- The record is the same socket with the same stored event, open as before. -/
structure Keeps (s t : Registry) : Prop where
  fd : t.sock.fd = s.sock.fd
  shadowfd : t.sock.shadowfd = s.sock.shadowfd
  ev : t.sock.ev = s.sock.ev
  program : t.program = s.program
  isOpen : ∀ d, d = s.sock.fd ∨ d = s.sock.shadowfd → t.world.isOpen d = s.world.isOpen d

/-- The registrations of the socket with the instance are the same, under each of its descriptors. -/
def Still (epfd : Int) (s t : Registry) : Prop :=
  ∀ d, d = s.sock.fd ∨ d = s.sock.shadowfd → t.world.interest epfd d = s.world.interest epfd d

theorem Keeps.trans (h : Keeps s t) (h' : Keeps t u) : Keeps s u where
  fd := h'.fd.trans h.fd
  shadowfd := h'.shadowfd.trans h.shadowfd
  ev := h'.ev.trans h.ev
  program := h'.program.trans h.program
  isOpen d hd := (h'.isOpen d (by rwa [h.fd, h.shadowfd])).trans (h.isOpen d hd)

theorem Still.trans (hk : Keeps s t) (h : Still epfd s t) (h' : Still epfd t u) : Still epfd s u :=
  fun d hd => (h' d (by rwa [hk.fd, hk.shadowfd])).trans (h d hd)

theorem Still.entries (hk : Keeps s t) (h : Still epfd s t) :
    t.under epfd = s.under epfd ∧ t.entries epfd = s.entries epfd := by
  have hunder : t.under epfd = s.under epfd := by
    unfold under
    rw [hk.fd, hk.shadowfd, h _ (Or.inl rfl)]
  unfold Registry.entries
  rw [hunder, hk.shadowfd, h _ (Or.inr rfl)]
  exact ⟨rfl, rfl⟩

theorem elsewhere_keeps (s : Registry) (r : DsuSocket) (w : World) : Keeps s (s.elsewhere r w) where
  fd := rfl
  shadowfd := rfl
  ev := rfl
  program := rfl
  isOpen d hd := by
    have hown : (d == s.sock.fd || d == s.sock.shadowfd) = true := by simpa using hd
    simp only [elsewhere, World.isOpen, hown, if_true]

theorem elsewhere_still (s : Registry) (r : DsuSocket) (w : World) (epfd : Int) : Still epfd s (s.elsewhere r w) := by
  intro d hd
  have hown : (d == s.sock.fd || d == s.sock.shadowfd) = true := by simpa using hd
  have hfdt : (s.elsewhere r w).world.fdt d = s.world.fdt d := by simp only [elsewhere, hown, if_true]
  have hfinds : (s.elsewhere r w).world.finds epfd d = s.world.finds epfd d := by
    funext g
    unfold World.finds
    rw [hfdt]
  rw [World.interest_eq, World.interest_eq, hfinds]
  simp only [elsewhere, List.filter_append, List.filter_filter]
  have hnone : w.regs.filter (fun g => s.world.finds epfd d g && !(g.fd == s.sock.fd || g.fd == s.sock.shadowfd)) = [] := by
    refine List.filter_eq_nil_iff.mpr fun g _ h => ?_
    simp only [World.finds, Bool.and_eq_true, beq_iff_eq, Bool.not_eq_true'] at h
    rw [h.1.1.2, hown] at h
    cases h.2
  have hall : s.world.regs.filter (fun g => s.world.finds epfd d g && (g.fd == s.sock.fd || g.fd == s.sock.shadowfd)) =
      s.world.regs.filter (s.world.finds epfd d) := by
    refine List.filter_congr fun g _ => ?_
    cases hg : s.world.finds epfd d g
    · rfl
    · simp only [World.finds, Bool.and_eq_true, beq_iff_eq] at hg
      rw [hg.1.2, hown]
      rfl
  rw [hnone, hall]
  rfl

/-- Both descriptors of the record are open. -/
def Opened (s : Registry) : Prop := s.world.isOpen s.sock.fd = true ∧ s.world.isOpen s.sock.shadowfd = true

theorem Opened.keeps (h : s.Opened) (hk : Keeps s t) : t.Opened := by
  unfold Opened
  rw [hk.fd, hk.shadowfd, hk.isOpen _ (Or.inl rfl), hk.isOpen _ (Or.inr rfl)]
  exact h

theorem keeps_of_fdt (hfdt : t.world.fdt = s.world.fdt) (hfd : t.sock.fd = s.sock.fd)
    (hshadowfd : t.sock.shadowfd = s.sock.shadowfd) (hev : t.sock.ev = s.sock.ev) (hprogram : t.program = s.program) :
    Keeps s t :=
  ⟨hfd, hshadowfd, hev, hprogram, fun d _ => World.isOpen_congr hfdt d⟩

section Wait
variable (hK : ∀ w, K.epollCtl w = true)
include hK

/-- In the kernel wait nothing is left under a `fd` that is not the `shadowfd`, if an event is stored. -/
theorem asked_spec (ho : s.Opened) (epfd : Int) :
    Keeps s (s.asked K epfd) ∧ (∀ e, e ≠ epfd → Still e s (s.asked K epfd)) ∧
      (s.sock.ev.events = 0 → s.asked K epfd = s) ∧
      (s.sock.ev.events ≠ 0 → (s.asked K epfd).under epfd = []) := by
  by_cases hev : s.sock.ev.events = 0
  · have hnone : s.asked K epfd = s := by
      unfold asked
      rw [dsuEpollShadowfd_none hev]
    rw [hnone]
    exact ⟨keeps_of_fdt rfl rfl rfl rfl rfl, fun _ _ _ _ => rfl, fun _ => rfl, fun h => absurd hev h⟩
  · obtain ⟨hr, hfdt, hother, hnone⟩ := dsuEpollShadowfd_interest hK epfd ho.1 ho.2 hev
    have hsock : (s.asked K epfd).sock = s.sock ∨ (s.asked K epfd).sock = { s.sock with locked := true } := hr
    refine ⟨?_, fun e he d _ => hother e d he, fun h => absurd h hev, fun _ => ?_⟩
    · refine keeps_of_fdt hfdt ?_ ?_ ?_ rfl <;> rcases hsock with h | h <;> rw [h]
    · unfold under
      split
      · rfl
      · rename_i hne
        rcases hsock with h | h <;> rw [h] at hne ⊢ <;> exact hnone hne

/-- After the wait the stored event is registered under `fd`, if there is one. -/
theorem originalfd_spec (ho : s.Opened) (epfd : Int) (hunder : s.sock.ev.events ≠ 0 → s.under epfd = []) :
    let t : Registry := { s with
      sock := (dsuEpollOriginalfd K epfd s.sock s.world).1, world := (dsuEpollOriginalfd K epfd s.sock s.world).2 }
    Keeps s t ∧ (∀ e, e ≠ epfd → Still e s t) ∧ (s.sock.ev.events = 0 → Still epfd s t) ∧
      (s.sock.ev.events ≠ 0 → t.entries epfd = [s.sock.ev]) := by
  by_cases hev : s.sock.ev.events = 0
  · rw [dsuEpollOriginalfd_none hev]
    exact ⟨keeps_of_fdt rfl rfl rfl rfl rfl, fun _ _ _ _ => rfl, fun _ _ _ => rfl, fun h => absurd hev h⟩
  · have hnone : s.sock.fd ≠ s.sock.shadowfd → s.world.interest epfd s.sock.fd = [] := by
      intro hne
      have := hunder hev
      rwa [under, if_neg hne] at this
    obtain ⟨hr, hfdt, hother, hfd, hshadowfd⟩ := dsuEpollOriginalfd_interest hK epfd ho.1 ho.2 hev hnone
    refine ⟨keeps_of_fdt hfdt (by rw [hr]) (by rw [hr]) (by rw [hr]) rfl, fun e he d _ => hother e d he,
      fun h => absurd h hev, fun _ => ?_⟩
    simp only [entries, under, hr]
    split
    · rename_i he
      rw [← he, hfd]
      rfl
    · rename_i hne
      rw [hfd, hshadowfd hne]
      rfl

theorem restored_spec (ho : s.Opened) (epfd : Int) (hunder : s.sock.ev.events ≠ 0 → s.under epfd = []) :
    Keeps s (s.restored K epfd) ∧ (∀ e, e ≠ epfd → Still e s (s.restored K epfd)) ∧
      (s.sock.ev.events = 0 → Still epfd s (s.restored K epfd)) ∧
      (s.sock.ev.events ≠ 0 → (s.restored K epfd).entries epfd = [s.sock.ev]) := by
  have hsock : (unlockFd s.sock s.world).1 = s.sock ∨ (unlockFd s.sock s.world).1 = { s.sock with locked := false } := by
    unfold unlockFd
    split
    · exact Or.inr rfl
    · exact Or.inl rfl
  let u : Registry := { s with sock := (unlockFd s.sock s.world).1, world := (unlockFd s.sock s.world).2 }
  have hku : Keeps s u := by
    refine keeps_of_fdt (unlockFd_interest 0 0).1 ?_ ?_ ?_ rfl <;> rcases hsock with h | h <;> simp only [u, h]
  have hstill : ∀ e, Still e s u := fun e d _ => (unlockFd_interest e d).2
  have hspec := originalfd_spec hK (s := u) (ho.keeps hku) epfd (by
    rw [hku.ev, ((hstill epfd).entries hku).1]
    exact hunder)
  rw [hku.ev] at hspec
  obtain ⟨hk, hother, hnone, hentries⟩ := hspec
  exact ⟨hku.trans hk, fun e he => (hstill e).trans hku (hother e he), fun h => (hstill epfd).trans hku (hnone h), hentries⟩

/-- An `epoll_wait` leaves the stored event registered, if there is one, and changes no other instance. -/
theorem wait_spec {r : DsuSocket} {w : World} (ho : s.Opened) (hs : s.step K (.wait epfd r w) = some t) :
    Keeps s t ∧ (∀ e, e ≠ epfd → Still e s t) ∧ (s.sock.ev.events = 0 → Still epfd s t) ∧
      (s.sock.ev.events ≠ 0 → t.entries epfd = [s.sock.ev]) := by
  cases Option.some.inj hs
  obtain ⟨hk₁, hother₁, hnone₁, hunder₁⟩ := asked_spec hK ho epfd
  have hk₂ := elsewhere_keeps (s.asked K epfd) r w
  have hstill₂ := elsewhere_still (s.asked K epfd) r w
  have hk := hk₁.trans hk₂
  obtain ⟨hk₃, hother₃, hnone₃, hentries₃⟩ := restored_spec hK (ho.keeps hk) epfd (by
    rw [hk.ev, ((hstill₂ epfd).entries hk₂).1]
    exact hunder₁)
  rw [hk.ev] at hnone₃ hentries₃
  refine ⟨hk.trans hk₃, fun e he => ?_, fun h => ?_, hentries₃⟩
  · exact (((hother₁ e he).trans hk₁ (hstill₂ e)).trans hk (hother₃ e he))
  · have hstill₁ : Still epfd s (s.asked K epfd) := by
      rw [hnone₁ h]
      exact fun _ _ => rfl
    exact ((hstill₁.trans hk₁ (hstill₂ epfd)).trans hk (hnone₃ h))

/-- `epoll_ctl` acts on `shadowfd`, like plain epoll. -/
theorem ctl_spec {op : EpollOp} {event : EpollEvent} (ho : s.Opened) (hs : s.step K (.ctl epfd op event) = some t) :
    let ok := plainOk op (s.world.interest epfd s.sock.shadowfd)
    (epollCtlBound K epfd op event s.sock s.world).1 = ok ∧ t.Opened ∧
      t.program = (if ok then Function.update s.program epfd (registered op event) else s.program) ∧
      t.sock = { s.sock with ev := if op = .del then noEvent else event } ∧
      (∀ e, t.under e = s.under e) ∧
      ∀ e, t.world.interest e t.sock.shadowfd =
        if e = epfd then plainSet op event (s.world.interest epfd s.sock.shadowfd)
        else s.world.interest e s.sock.shadowfd := by
  cases Option.some.inj hs
  obtain ⟨hok, hinterest⟩ := World.epollCtl_interest hK epfd op event false ho.2
  have hfdt := s.world.epollCtl_fdt K epfd op s.sock.shadowfd event false
  refine ⟨hok, ?_, ?_, rfl, fun e => ?_, fun e => ?_⟩
  · exact ⟨(World.isOpen_congr hfdt _).trans ho.1, (World.isOpen_congr hfdt _).trans ho.2⟩
  · rw [← hok]
    rfl
  · by_cases he : s.sock.fd = s.sock.shadowfd
    · exact (if_pos he).trans (if_pos he).symm
    · have hother := (hinterest e s.sock.fd).trans (if_neg fun h => he h.2)
      exact ((if_neg he).trans hother).trans (if_neg he).symm
  · refine (hinterest e s.sock.shadowfd).trans ?_
    simp

end Wait

end Registry

end OpenDSU
