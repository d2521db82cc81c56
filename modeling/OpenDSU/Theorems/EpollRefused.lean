import OpenDSU.Theorems.EpollTransparent

/-! What a refused `epoll_ctl` leaves behind: the event is stored before the kernel is asked. -/

namespace OpenDSU

variable {K : Kernel} {p : Proc} {r : DsuSocket} {epfd fd : Int} {op : EpollOp} {event : EpollEvent}

/-- The event that `epoll_ctl` stores for a bound socket. -/
def storedEvent (op : EpollOp) (event : EpollEvent) : EpollEvent := if op = .del then noEvent else event

/-- The record with another stored event. -/
def DsuSocket.storing (r : DsuSocket) (ev : EpollEvent) : DsuSocket := { r with ev := ev }

/-- A refused call changes nothing in the kernel. -/
theorem World.epollCtl_refused {w : World} {internal : Bool} (h : (w.epollCtl K epfd op fd event internal).1 = false) :
    (w.epollCtl K epfd op fd event internal).2 = w.tick := by
  unfold epollCtl at h ⊢
  split
  · rfl
  · rename_i file hfile
    simp only [hfile] at h ⊢
    split at h
    · rename_i hK
      rw [if_pos hK]
    · rename_i hK
      rw [if_neg hK]
      cases op with
      | add =>
        simp only at h ⊢
        split at h
        · rename_i hknown
          rw [if_pos hknown]
        · cases h
      | mod =>
        simp only at h ⊢
        split at h
        · cases h
        · rename_i hknown
          rw [if_neg hknown]
      | del =>
        simp only at h ⊢
        split at h
        · cases h
        · rename_i hknown
          rw [if_neg hknown]

/-- The process as it would be without the call; time has passed. -/
def Proc.waited (p : Proc) : Proc := { p with world := p.world.tick }

/-- The call changed nothing: the stored event is as before, and every later `epoll_wait`, after any calls, leaves
    the process and returns the events that it would have without the call. -/
structure NoTrace (K : Kernel) (p q : Proc) (fd : Int) : Prop where
  ev : (dsuSocketsSearchFd q.binds fd).map DsuSocket.ev = (dsuSocketsSearchFd p.binds fd).map DsuSocket.ev
  later : ∀ calls epfd events maxevents timeout,
    ((procMachine K).run q calls).map (epollWait K epfd events maxevents timeout) =
      ((procMachine K).run p.waited calls).map (epollWait K epfd events maxevents timeout)

/-! ### The record that is written to -/

theorem find_dsuSocketsUpdate {test : DsuSocket → Bool} {f : DsuSocket → DsuSocket} (htest : ∀ x, test (f x) = test x)
    (l : List DsuSocket) : (dsuSocketsUpdate test f l).find? test = (l.find? test).map f := by
  induction l with
  | nil => rfl
  | cons x l ih =>
    unfold dsuSocketsUpdate
    rw [List.find?_cons]
    cases hx : test x with
    | true => simp [htest, hx]
    | false => simpa [List.find?_cons, hx] using ih

theorem dsuSocketsUpdate_self {test : DsuSocket → Bool} {f : DsuSocket → DsuSocket} {l : List DsuSocket}
    (h : l.find? test = some r) (hf : f r = r) : dsuSocketsUpdate test f l = l := by
  obtain ⟨pre, post, hl, hupdate⟩ := dsuSocketsUpdate_of_find h f
  rw [hupdate, hf, hl]

/-- A refused call leaves the process with the event stored in the record of the socket. -/
theorem epollCtl_refused (h : dsuSocketsSearchFd p.binds fd = some r)
    (hrefused : (epollCtl K p epfd op fd event).1 = false) :
    (epollCtl K p epfd op fd event).2 =
      { p.waited with binds := dsuSocketsUpdate (·.fd == fd) (·.storing (storedEvent op event)) p.binds } := by
  unfold epollCtl at hrefused ⊢
  rw [h] at hrefused ⊢
  simp only at hrefused ⊢
  rw [World.epollCtl_refused hrefused]
  rfl

/-! ### When nothing is left -/

/-- A refused `epoll_ctl` on a bound socket changes nothing if and only if the event that it stores is the one that
is stored already: zero when it deletes, else the given one. -/
theorem epollCtl_noTrace_iff (h : dsuSocketsSearchFd p.binds fd = some r)
    (hrefused : (epollCtl K p epfd op fd event).1 = false) :
    NoTrace K p (epollCtl K p epfd op fd event).2 fd ↔ storedEvent op event = r.ev := by
  rw [epollCtl_refused h hrefused]
  constructor
  · intro hnone
    have hev := hnone.ev
    have hfind : dsuSocketsSearchFd (dsuSocketsUpdate (·.fd == fd) (·.storing (storedEvent op event)) p.binds) fd =
        (dsuSocketsSearchFd p.binds fd).map (·.storing (storedEvent op event)) :=
      @find_dsuSocketsUpdate (·.fd == fd) (·.storing (storedEvent op event)) (fun _ => rfl) p.binds
    rw [hfind, h] at hev
    exact Option.some.inj hev
  · intro hev
    have hsame : dsuSocketsUpdate (·.fd == fd) (·.storing (storedEvent op event)) p.binds = p.binds :=
      dsuSocketsUpdate_self h (by rw [hev]; rfl)
    rw [hsame]
    exact ⟨rfl, fun _ _ _ _ _ => rfl⟩

/-- The next `epoll_wait` registers the event of a refused call. -/
theorem Registry.wait_after_refused (hK : ∀ w, K.epollCtl w = true) {s t u : Registry} (ho : s.Opened)
    (hs : s.step K (.ctl epfd op event) = some t) {w : World} (ht : t.step K (.wait epfd r w) = some u)
    (hev : (storedEvent op event).events ≠ 0) : u.entries epfd = [storedEvent op event] := by
  obtain ⟨-, hopen, -, hsock, -⟩ := ctl_spec hK ho hs
  have hstored : t.sock.ev = storedEvent op event := by
    rw [hsock]
    rfl
  obtain ⟨-, -, -, hentries⟩ := wait_spec hK hopen ht
  rw [hstored] at hentries
  exact hentries hev

/-- A program deletes its socket from an epoll instance that does not have it: the stored event is zero, and stays. -/
theorem epollCtl_noTrace_del : ∃ p r, (procMachine soloKernel).run .loaded [.socket, .bind 3 8080] = some p ∧
    dsuSocketsSearchFd p.binds 3 = some r ∧ (epollCtl soloKernel p 9 .del 3 noEvent).1 = false ∧
    NoTrace soloKernel p (epollCtl soloKernel p 9 .del 3 noEvent).2 3 :=
  ⟨_, _, rfl, rfl, by decide, (epollCtl_noTrace_iff rfl (by decide)).mpr rfl⟩

/-- The program changes a registration that it has not made. The kernel refuses, and the next `epoll_wait` registers
the socket; without the call it would not. -/
theorem refused_mod_registered : ∃ p, (procMachine soloKernel).run .loaded [.socket, .bind 3 8080] = some p ∧
    (epollCtl soloKernel p 9 .mod 3 Registry.readable).1 = false ∧
    (dsuSocketsSearchFd p.binds 3).map DsuSocket.ev = some noEvent ∧
    (dsuSocketsSearchFd (epollCtl soloKernel p 9 .mod 3 Registry.readable).2.binds 3).map DsuSocket.ev =
      some Registry.readable ∧
    (epollWait soloKernel 9 (fun _ => ⟨noEvent, none⟩) 8 (some 0) p.waited).1.world.interest 9 3 = [] ∧
    (epollWait soloKernel 9 (fun _ => ⟨noEvent, none⟩) 8 (some 0)
      (epollCtl soloKernel p 9 .mod 3 Registry.readable).2).1.world.interest 9 3 = [Registry.readable] ∧
    ¬NoTrace soloKernel p (epollCtl soloKernel p 9 .mod 3 Registry.readable).2 3 :=
  ⟨_, rfl, by decide, by decide, by decide, by decide, by decide, fun h => absurd h.ev (by decide)⟩

end OpenDSU
