import OpenDSU.Theorems.Turns

/-! A bound socket among the records of a process: every call of the program is for the socket a run of the
registry's actions.

An `epoll_wait` handles the records in turn, each pass over all of them before the next. For one socket the other
records come between its own steps, and leave its descriptors and registrations alone. -/

open Relation

namespace OpenDSU

variable {K : Kernel} {own : List Int} {r r' : DsuSocket} {v w w' : World} {p q : Proc} {s t : Registry}

/-- The semaphores and the shared memory are not read from the interest lists. -/
structure Kernel.LocksApart (K : Kernel) : Prop where
  semWait : ∀ w regs, K.semWait { w with regs := regs } = K.semWait w
  semTrywait : ∀ w regs sem, K.semTrywait { w with regs := regs } sem = K.semTrywait w sem
  status : ∀ w regs port, K.status { w with regs := regs } port = K.status w port

/-! ### The same descriptors with the same registrations -/

/-- The first differs from the second in registrations of other descriptors at most. -/
structure World.Mirrors (own : List Int) (v w : World) : Prop where
  rest : ∃ regs, v = { w with regs := regs }
  interest : ∀ e, ∀ d ∈ own, v.interest e d = w.interest e d

theorem World.Mirrors.fdt (h : v.Mirrors own w) : v.fdt = w.fdt := by
  obtain ⟨regs, hrest⟩ := h.rest
  rw [hrest]

theorem World.Mirrors.epollCtl (hK : ∀ w, K.epollCtl w = true) (h : v.Mirrors own w) {d : Int} (hd : d ∈ own)
    (hopen : w.isOpen d = true) (epfd : Int) (op : EpollOp) (ev : EpollEvent) (internal : Bool) :
    (v.epollCtl K epfd op d ev internal).1 = (w.epollCtl K epfd op d ev internal).1 ∧
      (v.epollCtl K epfd op d ev internal).2.Mirrors own (w.epollCtl K epfd op d ev internal).2 := by
  obtain ⟨hokv, hv⟩ := World.epollCtl_interest hK epfd op ev internal ((World.isOpen_congr h.fdt d).trans hopen)
  obtain ⟨hokw, hw⟩ := World.epollCtl_interest hK epfd op ev internal hopen
  refine ⟨by rw [hokv, hokw, h.interest epfd d hd], ?_, fun e c hc => ?_⟩
  · obtain ⟨regs, hrest⟩ := h.rest
    obtain ⟨regsv, hrestv⟩ := v.epollCtl_rest (K := K) epfd op d ev internal
    obtain ⟨regsw, hrestw⟩ := w.epollCtl_rest (K := K) epfd op d ev internal
    rw [hrestv, hrestw, hrest]
    exact ⟨regsv, rfl⟩
  · rw [hv, hw, h.interest epfd d hd, h.interest e c hc]

section Locks
variable (hlocks : K.LocksApart)
include hlocks

theorem World.Mirrors.waitStatus (h : v.Mirrors own w) (port : Nat) :
    (v.waitStatus K port).1 = (w.waitStatus K port).1 ∧ (v.waitStatus K port).2.Mirrors own (w.waitStatus K port).2 := by
  have hinterest := h.interest
  obtain ⟨regs, rfl⟩ := h.rest
  refine ⟨hlocks.semWait w regs, ⟨regs, ?_⟩, hinterest⟩
  unfold World.waitStatus
  simp only [hlocks.status]

theorem World.Mirrors.trywait (h : v.Mirrors own w) (sem : Nat) :
    (v.trywait K sem).1 = (w.trywait K sem).1 ∧ (v.trywait K sem).2.Mirrors own (w.trywait K sem).2 := by
  have hinterest := h.interest
  obtain ⟨regs, rfl⟩ := h.rest
  unfold World.trywait
  simp only [hlocks.semTrywait]
  split <;> exact ⟨rfl, ⟨regs, rfl⟩, hinterest⟩

theorem tryMonitor_mirrors (h : v.Mirrors own w) (transfer : Bool) :
    (tryMonitor K r transfer v).1 = (tryMonitor K r transfer w).1 ∧
      (tryMonitor K r transfer v).2.2.Mirrors own (tryMonitor K r transfer w).2.2 := by
  obtain ⟨hok, hstatus⟩ := h.waitStatus hlocks r.port
  have hshared : (v.waitStatus K r.port).2.status r.port = (w.waitStatus K r.port).2.status r.port := by
    obtain ⟨regs, hrest⟩ := hstatus.rest
    rw [hrest]
  obtain ⟨hgot, hlock⟩ := hstatus.trywait hlocks r.fdSem
  unfold tryMonitor
  simp only [hok, hshared, hgot]
  split
  · split
    · exact ⟨rfl, hlock⟩
    · exact ⟨rfl, hstatus⟩
  · exact ⟨rfl, hstatus⟩

variable (hK : ∀ w, K.epollCtl w = true)
include hK

/-- The record of the socket itself, before the kernel wait. -/
theorem dsuEpollShadowfd_mirrors (h : v.Mirrors own w) (epfd : Int) (hfd : r.fd ∈ own) (hshadowfd : r.shadowfd ∈ own)
    (hopen : ∀ d ∈ own, w.isOpen d = true) :
    (dsuEpollShadowfd K epfd r v).1 = (dsuEpollShadowfd K epfd r w).1 ∧
      (dsuEpollShadowfd K epfd r v).2.Mirrors own (dsuEpollShadowfd K epfd r w).2 := by
  have hdel : (if r.ev.events ≠ 0 then (v.epollCtl K epfd .del r.fd noEvent false).2 else v).Mirrors own
      (if r.ev.events ≠ 0 then (w.epollCtl K epfd .del r.fd noEvent false).2 else w) := by
    split
    · exact (h.epollCtl hK hfd (hopen r.fd hfd) epfd .del noEvent false).2
    · exact h
  -- Nothing is closed on the way, so the shadow is open where it is registered.
  have hfdt : (if r.ev.events ≠ 0 then (w.epollCtl K epfd .del r.fd noEvent false).2 else w).fdt = w.fdt := by
    split
    · exact w.epollCtl_fdt K epfd .del r.fd noEvent false
    · rfl
  unfold dsuEpollShadowfd
  generalize (if r.ev.events ≠ 0 then (v.epollCtl K epfd .del r.fd noEvent false).2 else v) = v₁ at hdel ⊢
  generalize (if r.ev.events ≠ 0 then (w.epollCtl K epfd .del r.fd noEvent false).2 else w) = w₁ at hdel hfdt ⊢
  simp only
  split
  · obtain ⟨haccess, htry⟩ := tryMonitor_mirrors (r := r) hlocks hdel false
    have hshadow : (tryMonitor K r false w₁).2.2.isOpen r.shadowfd = true := by
      rw [World.isOpen_congr ((tryMonitor_interest false 0 0).1.trans hfdt)]
      exact hopen r.shadowfd hshadowfd
    have hadd := htry.epollCtl hK hshadowfd hshadow epfd .add { r.ev with data := { r.ev.data with fd := r.shadowfd } }
      false
    rw [haccess]
    cases (tryMonitor K r false w₁).1 with
    | refused => exact ⟨rfl, htry⟩
    | free => exact ⟨rfl, hadd.2⟩
    | locked => exact ⟨rfl, hadd.2⟩
  · exact ⟨rfl, hdel⟩

omit hlocks in
/-- And after it. -/
theorem dsuEpollOriginalfd_mirrors (h : v.Mirrors own w) (epfd : Int) (hfd : r.fd ∈ own)
    (hshadowfd : r.shadowfd ∈ own) (hopen : ∀ d ∈ own, w.isOpen d = true) :
    (dsuEpollOriginalfd K epfd r v).1 = (dsuEpollOriginalfd K epfd r w).1 ∧
      (dsuEpollOriginalfd K epfd r v).2.Mirrors own (dsuEpollOriginalfd K epfd r w).2 := by
  have hdel := (h.epollCtl hK hshadowfd (hopen r.shadowfd hshadowfd) epfd .del noEvent false).2
  have hstill : (w.epollCtl K epfd .del r.shadowfd noEvent false).2.isOpen r.fd = true := by
    rw [World.isOpen_congr (w.epollCtl_fdt K epfd .del r.shadowfd noEvent false)]
    exact hopen r.fd hfd
  unfold dsuEpollOriginalfd
  split
  · exact ⟨rfl, (hdel.epollCtl hK hfd hstill epfd .add r.ev false).2⟩
  · exact ⟨rfl, h⟩

end Locks

/-! ### The record among the others -/

/-- The descriptors that an `epoll_wait` registers for the record. -/
def DsuSocket.ends (r : DsuSocket) : List Int := [r.fd, r.shadowfd]

theorem DsuSocket.ends_of_stored (h : r'.stored = r.stored) : r'.ends = r.ends := by
  simp only [DsuSocket.stored, Prod.mk.injEq] at h
  unfold DsuSocket.ends
  rw [h.1, h.2.1]

/-- The descriptors are those of the record. No record watches them, and none of the others has them. -/
structure Amid (own : List Int) (pre : List DsuSocket) (r : DsuSocket) (post : List DsuSocket) (w : World) : Prop where
  ends : r.ends = own
  clear : ∀ x ∈ pre ++ r :: post, x.Clear own
  others : ∀ x ∈ pre ++ post, x.fd ∉ own ∧ x.shadowfd ∉ own
  isPrivate : w.Private own

variable {pre post l : List DsuSocket} {a : List DsuSocket × World}

/-- The others have other descriptors, whatever is done to them besides the record. -/
theorem forall_other_of_stored {l' : List DsuSocket} (h : l'.map DsuSocket.stored = l.map DsuSocket.stored)
    (hl : ∀ x ∈ l, x.fd ∉ own ∧ x.shadowfd ∉ own) : ∀ x ∈ l', x.fd ∉ own ∧ x.shadowfd ∉ own := by
  intro x hx
  obtain ⟨y, hy, hstored⟩ := exists_of_stored h.symm hx
  simp only [DsuSocket.stored, Prod.mk.injEq] at hstored
  rw [← hstored.1, ← hstored.2.1]
  exact hl y hy

/-- Numbers of records that can be told from each other leave each record by itself. -/
theorem Distinct.amid {sockets : List DsuSocket} (h : Distinct sockets (pre ++ r :: post) w) (hshadow : 0 < r.shadowfd)
    (hw : w.Private r.ends) : Amid r.ends pre r post w := by
  have hfd : 0 < r.fd := h.positive r (by simp)
  have hends : ∀ {n}, n ∈ r.ends → 0 < n ∧ n ∈ r.numbers ∧ (n = r.fd ∨ n = r.shadowfd) := by
    intro n hn
    have hn : n = r.fd ∨ n = r.shadowfd := by simpa [DsuSocket.ends] using hn
    rcases hn with rfl | rfl
    · exact ⟨hfd, fd_mem_numbers r, Or.inl rfl⟩
    · exact ⟨hshadow, shadowfd_mem_numbers r, Or.inr rfl⟩
  have hother : ∀ x ∈ pre ++ post, ∀ n ∈ r.ends, n ∉ x.numbers := fun x hx n hn =>
    h.not_mem (hends hn).1 (hends hn).2.1 hx
  refine ⟨rfl, fun x hx c hc hown => ?_, fun x hx => ⟨fun hmem => ?_, fun hmem => ?_⟩, hw⟩
  · -- The record itself watches other numbers than its ends; the others have none of them at all.
    have hx : x = r ∨ x ∈ pre ++ post := by
      simp only [List.mem_append, List.mem_cons] at hx ⊢
      tauto
    rcases hx with rfl | hx
    · exact h.not_mem_watched (hends hown).1 (hends hown).2.2 hc
    · exact hother x hx c hown (mem_numbers_of_watched hc)
  · exact hother x hx _ hmem (fd_mem_numbers x)
  · exact hother x hx _ hmem (shadowfd_mem_numbers x)

theorem Amid.search (h : Amid own pre r post w) : dsuSocketsSearchFd (pre ++ r :: post) r.fd = some r := by
  have hfd : r.fd ∈ own := h.ends ▸ List.mem_cons_self
  have hpre : dsuSocketsSearchFd pre r.fd = none := by
    refine List.find?_eq_none.mpr fun x hx he => ?_
    have he : x.fd = r.fd := by simpa using he
    exact (h.others x (List.mem_append_left _ hx)).1 (he ▸ hfd)
  unfold dsuSocketsSearchFd at hpre ⊢
  rw [List.find?_append, hpre]
  simp

/-- A pass that does nothing to the socket. -/
theorem Amid.besides (h : Amid own pre r post w) (hb : Besides own (pre ++ r :: post, w) a) :
    ∃ pre' r' post', a.1 = pre' ++ r' :: post' ∧ r'.stored = r.stored ∧ Amid own pre' r' post' a.2 := by
  have hstored : a.1.map DsuSocket.stored = pre.map DsuSocket.stored ++ r.stored :: post.map DsuSocket.stored := by
    rw [hb.stored, List.map_append, List.map_cons]
  obtain ⟨pre', rest', hl, hpre, hrest⟩ := List.map_eq_append_iff.mp hstored
  obtain ⟨r', post', rfl, hr, hpost⟩ := List.map_eq_cons_iff.mp hrest
  refine ⟨pre', r', post', hl, hr, (DsuSocket.ends_of_stored hr).trans h.ends, hl ▸ hb.clear, ?_, hb.keeps.isPrivate⟩
  exact forall_other_of_stored (by rw [List.map_append, hpre, hpost, List.map_append]) h.others

/-- A pass that does something to the socket, when the walk comes to it. -/
theorem amid_walk {f : DsuSocket → World → DsuSocket × World} (h : Amid own pre r post w)
    (hothers : ∀ x w, x.fd ∉ own → x.shadowfd ∉ own → x.Clear own → w.Private own → Beside own (x, w) (f x w))
    (hself : ∀ w, w.Private own → (f r w).1.stored = r.stored ∧ (f r w).1.Clear own ∧ (f r w).2.Private own) :
    ∃ pre' post' w₁, (walk f (pre ++ r :: post) w).1 = pre' ++ (f r w₁).1 :: post' ∧ w.Keeps own w₁ ∧
      (f r w₁).2.Keeps own (walk f (pre ++ r :: post) w).2 ∧
      Amid own pre' (f r w₁).1 post' (walk f (pre ++ r :: post) w).2 := by
  obtain ⟨hpre, hr, hpost⟩ : (∀ x ∈ pre, x.Clear own) ∧ r.Clear own ∧ ∀ x ∈ post, x.Clear own := by
    simpa [or_imp, forall_and] using h.clear
  obtain ⟨hopre, hopost⟩ := List.forall_mem_append.mp h.others
  have hfirst := Besides.walk id (fun x hx w hx' hw => hothers x w (hopre x hx).1 (hopre x hx).2 hx' hw) w hpre
    h.isPrivate
  have hown := hself (walk f pre w).2 hfirst.keeps.isPrivate
  have hrest := Besides.walk id (fun x hx w hx' hw => hothers x w (hopost x hx).1 (hopost x hx).2 hx' hw)
    (f r (walk f pre w).2).2 hpost hown.2.2
  rw [walk_append, walk_cons]
  refine ⟨_, _, _, rfl, hfirst.keeps, hrest.keeps, (DsuSocket.ends_of_stored hown.1).trans h.ends, ?_, ?_,
    hrest.keeps.isPrivate⟩
  · exact List.forall_mem_append.mpr ⟨hfirst.clear, List.forall_mem_cons.mpr ⟨hown.2.1, hrest.clear⟩⟩
  · refine forall_other_of_stored ?_ h.others
    rw [List.map_append, List.map_append]
    exact congrArg₂ _ hfirst.stored hrest.stored

/-- What an `epoll_wait` does to the record itself. -/
theorem dsuEpollShadowfd_self (epfd : Int) (hr : r.Clear own) (h : w.Private own) :
    (dsuEpollShadowfd K epfd r w).1.stored = r.stored ∧ (dsuEpollShadowfd K epfd r w).1.Clear own ∧
      (dsuEpollShadowfd K epfd r w).2.Private own := by
  have hdel : (if r.ev.events ≠ 0 then (w.epollCtl K epfd .del r.fd noEvent false).2 else w).Private own := by
    split
    · exact h.afterCtl epfd .del r.fd noEvent false
    · exact h
  unfold dsuEpollShadowfd
  generalize (if r.ev.events ≠ 0 then (w.epollCtl K epfd .del r.fd noEvent false).2 else w) = w₁ at hdel ⊢
  simp only
  split
  · have htry := (tryMonitor_keeps (K := K) (r := r) hdel false).isPrivate
    split
    · exact ⟨rfl, hr, htry⟩
    · exact ⟨rfl, hr, htry.afterCtl ..⟩
    · exact ⟨rfl, hr, htry.afterCtl ..⟩
  · exact ⟨rfl, hr, hdel⟩

theorem dsuEpollOriginalfd_self (epfd : Int) (h : w.Private own) :
    (dsuEpollOriginalfd K epfd r w).1 = r ∧ (dsuEpollOriginalfd K epfd r w).2.Private own := by
  unfold dsuEpollOriginalfd
  split
  · exact ⟨rfl, (h.afterCtl epfd .del r.shadowfd noEvent false).afterCtl ..⟩
  · exact ⟨rfl, h⟩

section Wait
variable (hK : ∀ w, K.epollCtl w = true) (h : Amid own pre r post w) (epfd : Int)
include hK h

/-- An `epoll_wait` up to its kernel wait, for one socket. -/
theorem dsuPreEpoll_amid : ∃ pre' r' post' w₁, let a := dsuEpollShadowfd K epfd r w₁
    let c := dsuPreEpoll K epfd (pre ++ r :: post) w
    c.1 = pre' ++ r' :: post' ∧ r'.stored = a.1.stored ∧ w.Keeps own w₁ ∧ a.2.Keeps own c.2 ∧
      Amid own pre' r' post' c.2 := by
  have hr : r.Clear own := h.clear r (by simp)
  obtain ⟨pre₁, post₁, w₁, hbinds, hbefore, hafter, hamid⟩ := amid_walk (f := dsuEpollShadowfd K epfd) h
    (fun _ _ hfd hshadowfd hx hw => dsuEpollShadowfd_beside hK epfd hx hfd hshadowfd hw)
    (fun _ hw => dsuEpollShadowfd_self epfd hr hw)
  have hlisten := Besides.walk (f := dsuEpollInternalConn K epfd) id
    (fun _ _ _ hx hw => dsuEpollInternalConn_beside hK epfd hx hw) (walk (dsuEpollShadowfd K epfd) (pre ++ r :: post) w).2
    hamid.clear hamid.isPrivate
  obtain ⟨pre', r', post', hl, hr', hamid'⟩ := hamid.besides hlisten
  refine ⟨pre', r', post', w₁, ?_, hr', hbefore, ?_, ?_⟩
  all_goals
    unfold dsuPreEpoll
    simp only [hbinds]
  · exact hl
  · exact hafter.trans hlisten.keeps
  · exact hamid'

/-- And from it on. -/
theorem dsuPostEpoll_amid (p : Proc) (hbinds : p.binds = pre ++ r :: post) (hworld : p.world = w) (es : List Event)
    (events : Nat → Event) : ∃ pre' r₁ post' w₁, let a := dsuEpollOriginalfd K epfd r₁ w₁
    let q := (dsuPostEpoll K epfd p es events).1
    r₁.stored = r.stored ∧ r₁.locked = false ∧ w.Keeps own w₁ ∧ a.2.Keeps own q.world ∧
      q.binds = pre' ++ r₁ :: post' ∧ Amid own pre' r₁ post' q.world := by
  have hserve := Besides.walk (f := dsuHandleConnEpoll K epfd) Prod.snd
    (fun x _ s hx hw => (dsuHandleConnEpoll_handles K x epfd s).beside hx hw) (es, w) h.clear h.isPrivate
  generalize hserved : walk (dsuHandleConnEpoll K epfd) (pre ++ r :: post) (es, w) = served at hserve
  have hunlock := Besides.walk (f := dsuEpollUnlock) id (fun _ _ _ hx hw => unlockFd_beside hx hw) served.2.2
    hserve.clear hserve.keeps.isPrivate
  generalize hunlocked : walk dsuEpollUnlock served.1 served.2.2 = unlocked at hunlock
  have hq : (dsuPostEpoll K epfd p es events).1 = { p with
      binds := (walk (dsuEpollOriginalfd K epfd) unlocked.1 unlocked.2).1
      world := (walk (dsuEpollOriginalfd K epfd) unlocked.1 unlocked.2).2 } := by
    rw [← hunlocked, ← hserved, ← hbinds, ← hworld]
    rfl
  have hbeside : Besides own (pre ++ r :: post, w) (unlocked.1, unlocked.2) := hserve.trans hunlock
  obtain ⟨pre₁, r₁, post₁, hl, hr₁, hamid⟩ := h.besides hbeside
  have hlocked : r₁.locked = false := by
    have hall : ∀ x ∈ unlocked.1, x.locked = false := by
      rw [← hunlocked]
      refine forall_mem_walk (fun x w => ?_) _ _
      unfold dsuEpollUnlock unlockFd
      split <;> simp_all
    exact hall r₁ (by rw [hl]; simp)
  obtain ⟨pre', post', w₁, hbinds', hbefore, hafter, hamid'⟩ := amid_walk (f := dsuEpollOriginalfd K epfd) hamid
    (fun _ _ hfd hshadowfd hx hw => dsuEpollOriginalfd_beside hK epfd hx hfd hshadowfd hw)
    (fun _ hw => by
      obtain ⟨hsame, hprivate⟩ := dsuEpollOriginalfd_self (K := K) (r := r₁) epfd hw
      rw [hsame]
      exact ⟨rfl, hamid.clear r₁ (by simp), hprivate⟩)
  rw [(dsuEpollOriginalfd_self epfd hbefore.isPrivate).1] at hbinds' hamid'
  rw [hq, hl]
  exact ⟨pre', r₁, post', w₁, hr₁, hlocked, hbeside.keeps.trans hbefore, hafter, hbinds', hamid'⟩

end Wait

/-! ### What the registry shows of the record -/

/-- What a program asks of epoll for one socket. -/
inductive EpollAsk where
  | ctl (epfd : Int) (op : EpollOp) (event : EpollEvent)
  | wait (epfd : Int)
deriving DecidableEq

def RegAct.asks : RegAct → Option EpollAsk
  | .ctl epfd op event => some (.ctl epfd op event)
  | .wait epfd _ _ => some (.wait epfd)
  | .turn _ _ => none

namespace Registry

/-- The registry has the record, and the instances have the same for its descriptors. -/
structure Shows (own : List Int) (s : Registry) (r : DsuSocket) (w : World) : Prop where
  sock : s.sock = r
  ends : r.ends = own
  world : s.world.Mirrors own w

/-- What happens besides the record is a turn. -/
theorem Shows.elsewhere (h : s.Shows own r w) (hr : r'.stored = r.stored) (hw : w.Keeps own w') :
    (s.elsewhere r' w').Shows own r' w' := by
  obtain ⟨rfl, rfl, hworld⟩ := h
  have hends := DsuSocket.ends_of_stored hr
  simp only [DsuSocket.stored, Prod.mk.injEq] at hr
  have hsame : { r' with fd := s.sock.fd, shadowfd := s.sock.shadowfd, ev := s.sock.ev } = r' := by
    rw [← hr.1, ← hr.2.1, ← hr.2.2]
  have hfdt : (s.elsewhere r' w').world.fdt = w'.fdt := by
    funext d
    simp only [Registry.elsewhere]
    split
    · rename_i hd
      have hd : d ∈ s.sock.ends := by simpa [DsuSocket.ends] using hd
      rw [hworld.fdt, hw.fdt d hd]
    · rfl
  refine ⟨hsame, hends, ⟨(s.elsewhere r' w').world.regs, ?_⟩, fun e d hd => ?_⟩
  · change { w' with fdt := (s.elsewhere r' w').world.fdt, regs := (s.elsewhere r' w').world.regs } = _
    rw [hfdt]
  · have hmem : d = s.sock.fd ∨ d = s.sock.shadowfd := by simpa [DsuSocket.ends] using hd
    rw [elsewhere_still s r' w' e d hmem, hworld.interest e d hd, hw.interest e d hd]

theorem Shows.fd_mem (h : s.Shows own r w) : r.fd ∈ own ∧ r.shadowfd ∈ own := by
  rw [← h.ends]
  simp [DsuSocket.ends]

section Calls
variable (hK : ∀ w, K.epollCtl w = true) (hlocks : K.LocksApart)
include hK

/-- `epoll_ctl` on the socket is answered alike. -/
theorem Shows.ctl (h : s.Shows own r w) (hw : w.Private own) (epfd : Int) (op : EpollOp) (event : EpollEvent) :
    (epollCtlBound K epfd op event s.sock s.world).1 = (epollCtlBound K epfd op event r w).1 ∧
      ∃ t, s.step K (.ctl epfd op event) = some t ∧
        t.Shows own (epollCtlBound K epfd op event r w).2.1 (epollCtlBound K epfd op event r w).2.2 := by
  obtain ⟨-, hshadowfd⟩ := h.fd_mem
  obtain ⟨rfl, hends, hworld⟩ := h
  obtain ⟨hok, hnext⟩ := hworld.epollCtl hK hshadowfd (hw.isOpen _ hshadowfd) epfd op event false
  exact ⟨hok, _, rfl, rfl, hends, hnext⟩

include hlocks

theorem Shows.asked (h : s.Shows own r w) (hr : r.Clear own) (hw : w.Private own) (epfd : Int) :
    (s.asked K epfd).Shows own (dsuEpollShadowfd K epfd r w).1 (dsuEpollShadowfd K epfd r w).2 := by
  obtain ⟨hfd, hshadowfd⟩ := h.fd_mem
  obtain ⟨rfl, hends, hworld⟩ := h
  obtain ⟨hsock, hnext⟩ := dsuEpollShadowfd_mirrors hlocks hK hworld epfd hfd hshadowfd hw.isOpen
  exact ⟨hsock, (DsuSocket.ends_of_stored (dsuEpollShadowfd_self epfd hr hw).1).trans hends, hnext⟩

omit hlocks in
theorem Shows.restored (h : s.Shows own r w) (hw : w.Private own) (hl : r.locked = false) (epfd : Int) :
    (s.restored K epfd).Shows own r (dsuEpollOriginalfd K epfd r w).2 := by
  obtain ⟨hfd, hshadowfd⟩ := h.fd_mem
  obtain ⟨rfl, hends, hworld⟩ := h
  obtain ⟨hsock, hnext⟩ := dsuEpollOriginalfd_mirrors hK hworld epfd hfd hshadowfd hw.isOpen
  have hunlock : dsuEpollUnlock s.sock s.world = (s.sock, s.world) := by
    unfold dsuEpollUnlock unlockFd
    rw [if_neg (by simp [hl])]
  have hrestored : s.restored K epfd = { s with
      sock := (dsuEpollOriginalfd K epfd s.sock s.world).1, world := (dsuEpollOriginalfd K epfd s.sock s.world).2 } := by
    unfold Registry.restored
    rw [hunlock]
  rw [hrestored]
  exact ⟨hsock.trans (dsuEpollOriginalfd_self epfd hw).1, hends, hnext⟩

/-- An `epoll_wait` on the process is a turn of what comes before the record in the first pass, a wait, in which the
other records and the handlers have their turn, and a turn of what comes after it in the last pass. -/
theorem epollRest_runs (h : Amid own pre r post p.world) (hbinds : p.binds = pre ++ r :: post)
    (hs : s.Shows own r p.world) (epfd : Int) (events : Nat → Event) (maxevents : Nat) (timeout : Option Nat) :
    let q := (epollRest K epfd events maxevents timeout p).1
    ∃ as t, (registryMachine K).run s as = some t ∧ as.filterMap RegAct.asks = [.wait epfd] ∧ t.program = s.program ∧
      t.sock ∈ q.binds ∧ t.Shows own t.sock q.world ∧ q.world.Private own := by
  have hr : r.Clear own := h.clear r (by simp)
  obtain ⟨pre₁, r₁, post₁, w₁, hpre, hr₁, hbefore, hafter, hamid⟩ := dsuPreEpoll_amid hK h epfd
  rw [← hbinds] at hpre hafter hamid
  have htick := hamid.isPrivate.tick
  have hwaiting : Amid own pre₁ r₁ post₁ (dsuPreEpoll K epfd p.binds p.world).2.tick :=
    ⟨hamid.ends, hamid.clear, hamid.others, htick.isPrivate⟩
  obtain ⟨es, waiting, hwbinds, hwworld, hq⟩ : ∃ es waiting, waiting.binds = (dsuPreEpoll K epfd p.binds p.world).1 ∧
      waiting.world = (dsuPreEpoll K epfd p.binds p.world).2.tick ∧
      (epollRest K epfd events maxevents timeout p).1 = (dsuPostEpoll K epfd waiting es events).1 := by
    unfold epollRest World.epollWait
    simp only
    split <;> exact ⟨_, _, rfl, rfl, rfl⟩
  rw [hq]
  obtain ⟨pre', r₂, post', w₂, hr₂, hlocked, hbefore₂, hafter₂, hbinds', hamid'⟩ :=
    dsuPostEpoll_amid hK hwaiting epfd waiting (hwbinds.trans hpre) hwworld es events
  -- The first turn comes to the record before the wait, and the last goes on from it after the wait.
  have h₁ : (s.elsewhere r w₁).Shows own r w₁ := hs.elsewhere rfl hbefore
  have h₂ := h₁.asked hK hlocks hr hbefore.isPrivate epfd
  have h₃ := h₂.elsewhere (hr₂.trans hr₁) ((hafter.trans htick).trans hbefore₂)
  have h₄ := h₃.restored hK hbefore₂.isPrivate hlocked epfd
  have h₅ : (Registry.elsewhere _ r₂ _).Shows own r₂ _ := h₄.elsewhere rfl hafter₂
  refine ⟨[.turn r w₁, .wait epfd r₂ w₂, .turn r₂ (dsuPostEpoll K epfd waiting es events).1.world], _, rfl, rfl, rfl,
    ?_, ?_, hamid'.isPrivate⟩
  · rw [h₅.sock, hbinds']
    simp
  · rw [h₅.sock]
    exact h₅

end Calls

end Registry

end OpenDSU
