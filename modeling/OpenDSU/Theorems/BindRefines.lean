import OpenDSU.Theorems.ServeRefines

/-! The record that `bind` leaves is that of a process that has entered the port: the first one, or one whose exchange with
another version is done. So the code of a process refines the requests of the port from its `bind` on. -/

namespace OpenDSU

variable {K : Kernel} {q : Proc} {w : World} {r : DsuSocket} {sockfd : Int}

/-- A record that has served nobody. -/
def DsuSocket.Unused (r : DsuSocket) : Prop := r.comfds = [] ∧ r.locked = false ∧ r.transfer = false

/-! ### The two branches -/

/-- What an exchange that delivers both descriptors leaves. -/
structure Exchanged (r r' : DsuSocket) (w' : World) : Prop where
  record : r' = { r with shadowfd := r'.shadowfd, comfd := r'.comfd }
  shadow : w'.isOpen r'.shadowfd = true
  com : w'.isOpen r'.comfd = true
  apart : r'.shadowfd ≠ r'.comfd

theorem dsuInheritFd_exchanged (hmade : (w.isOpen r.comfd && K.connect w r.comfd) = true)
    (hd : w.tick.delivers K r.comfd = true) : Exchanged r (dsuInheritFd K r w).2.1 (dsuInheritFd K r w).2.2 := by
  rw [dsuInheritFd_eq, if_pos hmade]
  obtain ⟨hfull, hfull'⟩ := Bool.and_eq_true_iff.mp hd
  have hfirst := dsuReadFd_opens hfull r.shadowfd 0
  have hworld := dsuReadFd_world K w.tick r.comfd r.shadowfd 0 .shadow
  simp only
  generalize dsuReadFd K w.tick r.comfd r.shadowfd 0 .shadow = m at hfirst hworld ⊢
  have hsecond := dsuReadFd_opens (hworld ▸ hfull') 0 m.2.1
  generalize dsuReadFd K m.2.2 r.comfd 0 m.2.1 .com = m' at hsecond ⊢
  have hopen : w.tick.isOpen r.comfd = true := (Bool.and_eq_true_iff.mp hmade).1
  have left : ∀ {d}, m'.2.2.isOpen d = true → d ≠ r.comfd → (m'.2.2.close K r.comfd).isOpen d = true := by
    intro d hd hne
    rw [RequestState.isOpen_close, hd]
    simp [hne]
  exact {
    record := rfl
    shadow := left (hsecond.isOpen_mono hfirst.isOpen_self) (hfirst.free_number.ne hopen)
    com := left hsecond.isOpen_self (hsecond.free_number.ne (hfirst.isOpen_mono hopen))
    apart := (hsecond.free_number.ne hfirst.isOpen_self).symm }

theorem dsuReadFd_port {fd recvfd port port' : Int} {kind : Kind} (hfull : (w.recvmsg K fd kind).1.isFull = true)
    (hport : ∀ n m, (w.recvmsg K fd kind).1 = .full n m → m = port) : (dsuReadFd K w fd recvfd port' kind).2.1 = port := by
  unfold dsuReadFd
  simp only
  generalize (w.recvmsg K fd kind).1 = m at hfull hport ⊢
  cases m with
  | full n m => exact hport n m rfl
  | lost | malformed | bare => cases hfull

/-- The exchange returns the port of the second message. -/
theorem dsuInheritFd_port {port : Int} (hmade : (w.isOpen r.comfd && K.connect w r.comfd) = true)
    (hd : w.tick.delivers K r.comfd = true)
    (hport : ∀ w' n m, (World.recvmsg K w' r.comfd .com).1 = .full n m → m = port) : (dsuInheritFd K r w).1 = port := by
  rw [dsuInheritFd_eq, if_pos hmade]
  have hworld := dsuReadFd_world K w.tick r.comfd r.shadowfd 0 .shadow
  exact dsuReadFd_port (hworld ▸ (Bool.and_eq_true_iff.mp hd).2) (hport _)

theorem bind_inherits {port : Nat} (hs : dsuSocketsSearchFd q.sockets sockfd = some r)
    (hname : K.bindName (q.world.allot K .com).2 port = .inUse)
    (hopen : (q.world.allot K .com).2.isOpen (q.world.allot K .com).1 = true)
    (hres : 0 < (dsuInheritFd K { r with port := port, comfd := (q.world.allot K .com).1 }
      (q.world.allot K .com).2.tick).1) :
    bind K q sockfd port =
      let a := dsuInheritFd K { r with port := port, comfd := (q.world.allot K .com).1 } (q.world.allot K .com).2.tick
      bindInherit K q a.2.1 a.2.2 := by
  unfold bind
  rw [hs]
  simp only [dsuMonitorInit, hname, hopen, if_true]
  exact if_pos hres

theorem bind_first {port : Nat} (hs : dsuSocketsSearchFd q.sockets sockfd = some r)
    (hname : K.bindName (q.world.allot K .com).2 port ≠ .inUse) : bind K q sockfd port =
      bindFirst K q { r with port := port, comfd := (q.world.allot K .com).1 } (q.world.allot K .com).2.tick := by
  unfold bind
  rw [hs]
  refine if_neg fun hn => hname ?_
  exact ((dsuMonitorInit_inUse K).mp hn).2

namespace RequestState
open Function

/-- The kernel answers a `bind` as the state says, where the messages of the exchange have been read. -/
structure Hears (K : Kernel) (q : Proc) (sockfd : Int) (s : RequestState) : Prop where
  name : ∀ w, K.bindName w s.port = .inUse
  connect : ∀ w fd, K.connect w fd = true
  delivers : Call.Delivers K q (.bind sockfd s.port)
  port : ∀ w fd n m, (World.recvmsg K w fd .com).1 = .full n m → m = s.port
  status : ∀ w, K.status w s.port = s.status

variable {s t : RequestState} {num : Nat → Int} {c : Nat}

theorem port_pos (hr : requestMachine.Reachable s) : 0 < s.port := by
  refine hr.invariant (I := fun s => 0 < s.port) ?_ fun s a t hpos hs => ?_
  · rintro s ⟨port, pgid, hpos, rfl⟩
    exact hpos
  · rw [step_port hs]
    exact hpos

/-- The section of an inheriting version, on a record that has both descriptors. -/
theorem bindInherit_shows (hport : r.port = s.port) (hunused : r.Unused) (hshadow : w.isOpen r.shadowfd = true)
    (hcom : w.isOpen r.comfd = true) (hapart : r.shadowfd ≠ r.comfd) (hsem : ∀ w, K.semWait w = true)
    (hstatus : ∀ w, K.status w s.port = s.status) (hpgid : ∀ x ∈ s.conns c, x.pgid = q.pgid)
    (hstep : s.step (.inherit c) = some t) : ∃ r' o, (bindInherit K q r w).2.binds = q.binds ++ [r'] ∧
      Shows num c o (.ofBind q.pgid r' (bindInherit K q r w).2.world) t := by
  have henter : enterInherit K q.pgid (openSems K r w).1 (openSems K r w).2 =
      (bindInheritSection q.pgid s.status (openSems K r w).1, ((openSems K r w).2.waitStatus K s.port).2) := by
    have hp : (openSems K r w).1.port = s.port := hport
    unfold enterInherit
    rw [hp]
    simp only [World.waitStatus, hsem, if_true, hstatus]
  have hbind : (bindInherit K q r w).2 = q.transfer (bindInheritSection q.pgid s.status (openSems K r w).1)
      ((openSems K r w).2.waitStatus K s.port).2 := by
    change q.transfer (enterInherit K q.pgid (openSems K r w).1 (openSems K r w).2).1
      (enterInherit K q.pgid (openSems K r w).1 (openSems K r w).2).2 = _
    rw [henter]
  obtain ⟨x, shadow, com, hx, -, -, rfl⟩ := inherit_inv hstep
  obtain ⟨hcomfds, hlocked, htransfer⟩ := hunused
  have hpg := hpgid x hx
  rw [hbind]
  refine ⟨_, _, rfl, {
    host := update_self ..
    idle := rfl
    pgid := hpg.symm
    marks := ?_
    status := ?_
    comfds := hcomfds
    nodup := List.nodup_nil
    connected := fun d hd => by cases hd
    shadow := hshadow
    com := hcom
    apart := hapart }⟩
  · simp only [Server.ofBind, DsuSocket.marks, bindInheritSection, openSems, dsuSocketListInit, hpg, hlocked, htransfer]
  · change (if r.port = s.port then K.status _ s.port else _) = s.status
    rw [if_pos hport, hstatus]

/-- The section of the first version. -/
theorem bindFirst_shows (hunused : r.Unused) (hshadow : w.isOpen r.shadowfd = true) (hcom : w.isOpen r.comfd = true)
    (hapart : r.shadowfd ≠ r.comfd) (hsem : ∀ w, K.semWait w = true) :
    ∃ r' o, (bindFirst K q r w).2.binds = q.binds ++ [r'] ∧
      Shows num 0 o (.ofBind q.pgid r' (bindFirst K q r w).2.world) (start r.port q.pgid) := by
  have henter : enterFirst K q.pgid (openSems K r w).1 (openSems K r w).2 =
      ((bindFirstSection q.pgid (openSems K r w).1).2, ((openSems K r w).2.waitStatus K r.port).2.setStatus r.port
        (bindFirstSection q.pgid (openSems K r w).1).1) := by
    unfold enterFirst
    simp only [World.waitStatus, hsem, if_true]
    rfl
  have hbind : (bindFirst K q r w).2 = q.transfer (bindFirstSection q.pgid (openSems K r w).1).2
      (((openSems K r w).2.waitStatus K r.port).2.setStatus r.port (bindFirstSection q.pgid (openSems K r w).1).1).tick := by
    change q.transfer (enterFirst K q.pgid (openSems K r w).1 (openSems K r w).2).1
      (enterFirst K q.pgid (openSems K r w).1 (openSems K r w).2).2.tick = _
    rw [henter]
  obtain ⟨hcomfds, hlocked, -⟩ := hunused
  rw [hbind]
  refine ⟨_, _, rfl, {
    host := rfl
    idle := rfl
    pgid := rfl
    marks := ?_
    status := ?_
    comfds := hcomfds
    nodup := List.nodup_nil
    connected := fun d hd => by cases hd
    shadow := hshadow
    com := hcom
    apart := hapart }⟩
  · simp only [Server.ofBind, DsuSocket.marks, bindFirstSection, openSems, dsuSocketListInit, hlocked]
  · exact if_pos rfl

/-- Where a process has a descriptor left for `comfd`. -/
theorem allot_opens {kind : Kind} (h : (w.allot K kind).1 ≠ -1) : w.Opens (w.allot K kind).1 kind (w.allot K kind).2 := by
  rcases w.allot_cases K kind with ⟨hnone, -⟩ | ⟨n, hn, hopens⟩
  · exact absurd hnone h
  · rw [hn]
    exact hopens

/-- The record that `bind` leaves is that of the first process of the port, or of the one whose exchange is done. -/
theorem bind_shows {port : Nat} (hs : dsuSocketsSearchFd q.sockets sockfd = some r) (hunused : r.Unused)
    (hshadow : q.world.isOpen r.shadowfd = true) (hallot : (q.world.allot K .com).1 ≠ -1) (hsem : ∀ w, K.semWait w = true) :
    (K.bindName (q.world.allot K .com).2 port ≠ .inUse → ∃ r' o, (bind K q sockfd port).2.binds = q.binds ++ [r'] ∧
      Shows num 0 o (.ofBind q.pgid r' (bind K q sockfd port).2.world) (start port q.pgid)) ∧
    ∀ s t c, requestMachine.Reachable s → s.port = port → Hears K q sockfd s → (∀ x ∈ s.conns c, x.pgid = q.pgid) →
      s.step (.inherit c) = some t → ∃ r' o, (bind K q sockfd port).2.binds = q.binds ++ [r'] ∧
        Shows num c o (.ofBind q.pgid r' (bind K q sockfd port).2.world) t := by
  have hopens := allot_opens hallot
  constructor
  · intro hname
    rw [bind_first hs hname]
    exact bindFirst_shows (r := { r with port := port, comfd := (q.world.allot K .com).1 }) hunused
      (hopens.isOpen_mono hshadow) hopens.isOpen_self (hopens.free_number.ne hshadow).symm hsem
  · rintro s t c hr rfl hK hpgid hstep
    have hmade : ((q.world.allot K .com).2.tick.isOpen (q.world.allot K .com).1 &&
        K.connect (q.world.allot K .com).2.tick (q.world.allot K .com).1) = true :=
      Bool.and_eq_true_iff.mpr ⟨hopens.isOpen_self, hK.connect _ _⟩
    have hdelivers := hK.delivers (hK.name _) hmade
    have hport := dsuInheritFd_port (r := { r with port := s.port, comfd := (q.world.allot K .com).1 }) hmade hdelivers
      fun w n m hm => hK.port w _ n m hm
    have hex := dsuInheritFd_exchanged (r := { r with port := s.port, comfd := (q.world.allot K .com).1 }) hmade hdelivers
    have hpos : (0 : Int) < s.port := Int.natCast_pos.mpr (port_pos hr)
    rw [bind_inherits hs (hK.name _) hopens.isOpen_self (hport ▸ hpos)]
    refine bindInherit_shows ?_ ?_ hex.shadow hex.com hex.apart hsem hK.status hpgid hstep
    · rw [hex.record]
    · rw [hex.record]
      exact hunused

/-- The record of a process that has been forked is that of its parent. -/
theorem fork_shows {p : Nat} {o : Host} {a : Server} (h : Shows num p o a s) (hs : s.step (.fork p) = some t) :
    Shows num s.pids o a t := by
  obtain ⟨o', ho', -, rfl⟩ := fork_inv hs
  obtain rfl : o = o' := Option.some.inj (h.host.symm.trans ho')
  exact { h with host := update_self .. }

/-- A process of group 7 with socket 3. -/
def unboundProc : Proc where
  pgid := 7
  sockets := [{ dsuSocketListInit with shadowfd := 3, fd := 3 }]
  binds := []
  live := false
  correction := 0
  world := {
    fdt := fun fd => if fd = 3 then some { id := 3, kind := .user } else none
    files := 4
    regs := []
    status := fun _ => { pgid := 0, version := 0, transfer := 0 }
    workers := 1
    held := []
    log := []
    clock := 0 }
  orphans := []
  exited := false

/-- It binds to a port where no other version is running, and where one of group 5 is, which has answered its request. -/
theorem bind_shows_both : (∃ r' o, (bind soloKernel unboundProc 3 8080).2.binds = [r'] ∧
      Shows (fun c => (c : Int) + 8) 0 o (.ofBind 7 r' (bind soloKernel unboundProc 3 8080).2.world) (start 8080 7)) ∧
    ∃ s t K r' o, requestMachine.run (start 8080 5) [.connect 7, .send 1, .accept 0 1, .recv 0 1, .count 0,
      .writeShadow 0, .writeCom 0, .read 1, .read 1, .hangUp 1] = some s ∧ s.step (.inherit 1) = some t ∧
    (bind K unboundProc 3 8080).2.binds = [r'] ∧
      Shows (fun c => (c : Int) + 8) 1 o (.ofBind 7 r' (bind K unboundProc 3 8080).2.world) t := by
  have hsocket : dsuSocketsSearchFd unboundProc.sockets 3 = some { dsuSocketListInit with shadowfd := 3, fd := 3 } := rfl
  refine ⟨(bind_shows hsocket ⟨rfl, rfl, rfl⟩ rfl (by decide) fun _ => rfl).1 (by decide), ?_⟩
  obtain ⟨s, hs, t, ht, hport, hpgid⟩ : ∃ s, requestMachine.run (start 8080 5) [.connect 7, .send 1, .accept 0 1, .recv 0 1,
      .count 0, .writeShadow 0, .writeCom 0, .read 1, .read 1, .hangUp 1] = some s ∧ ∃ t, s.step (.inherit 1) = some t ∧
        s.port = 8080 ∧ ∀ x ∈ s.conns 1, x.pgid = 7 :=
    ⟨_, rfl, _, rfl, rfl, fun x hx => by cases hx; rfl⟩
  have hr : requestMachine.Reachable s := .of_run _ (.init ⟨8080, 5, by decide, rfl⟩) hs
  let K : Kernel := { soloKernel with
    bindName := fun _ _ => .inUse
    recvmsg := fun w _ => .full w.files 8080
    status := fun _ _ => s.status }
  have hK : Hears K unboundProc 3 s := {
    name := fun _ => rfl
    connect := fun _ _ => rfl
    delivers := by
      rw [hport]
      intro _ _
      rfl
    port := by
      intro w fd n m hm
      rw [hport]
      have hcases : (w.recvmsg K fd .com).1 = .lost ∨ (w.recvmsg K fd .com).1 = .full w.files 8080 := by
        unfold World.recvmsg
        split
        · exact Or.inl rfl
        · dsimp only [K]
          split
          · exact Or.inr rfl
          · exact Or.inl rfl
      rcases hcases with hlost | hfull
      · cases hm.symm.trans hlost
      · cases hm.symm.trans hfull
        rfl
    status := fun _ => rfl }
  have hallot : (unboundProc.world.allot K .com).1 = 4 := rfl
  obtain ⟨r', o, hbinds, hshows⟩ := (bind_shows hsocket ⟨rfl, rfl, rfl⟩ rfl (hallot ▸ by decide) fun _ => rfl).2
    s t 1 hr hport hK hpgid ht
  exact ⟨s, t, K, r', o, hs, ht, hbinds, hshows⟩

end RequestState
end OpenDSU
