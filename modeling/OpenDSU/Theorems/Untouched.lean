import OpenDSU.Theorems.Names

/-! What an event call leaves of its records, beyond `dsu_configure_socket`: every field but `monitoring`, `transfer`,
`locked` and `comfds`. -/

open Relation

namespace OpenDSU

/-- `g` reads none of the fields that the passes of an event call write. -/
structure Untouched {β : Type} (g : DsuSocket → β) : Prop where
  quit : ∀ r, g { r with monitoring := false, transfer := false } = g r
  counted : ∀ r, g { r with transfer := true } = g r
  locked : ∀ r b, g { r with locked := b } = g r
  comfds : ∀ r cs, g { r with comfds := cs } = g r

namespace Untouched
variable {β : Type} {g : DsuSocket → β} (h : Untouched g) (K : Kernel) (p : Proc) (r : DsuSocket) (w : World)
include h

theorem monitorFd (pgid : Int) : g (dsuMonitorFd K pgid r w).1 = g r := by
  unfold dsuMonitorFd
  simp only
  split
  · rcases monitorSection_cases pgid ((w.waitStatus K r.port).2.status r.port) r with
      ⟨-, he⟩ | ⟨-, -, he⟩ | ⟨-, -, he⟩ <;> rw [he]
    exact h.quit r
  · rfl

theorem unlockFd : g (OpenDSU.unlockFd r w).1 = g r := by
  unfold OpenDSU.unlockFd
  split
  · exact h.locked r false
  · rfl

theorem handles {K : Kernel} {c c' : DsuSocket × World} (hs : Handles K c c') : g c'.1 = g c.1 := by
  induction hs with
  | refl => rfl
  | tail _ hs ih =>
    rw [← ih]
    cases hs with
    | accept r w =>
      rcases acceptConn_cases K r w with ⟨hr, -⟩ | ⟨c, hr, -⟩ <;> rw [hr]
      exact h.comfds r _
    | @answer r w c _ =>
      rcases answerConn_cases K r w c with ⟨-, -, hr, -⟩ | ⟨-, -, -, hr | hr⟩ <;> rw [hr]
      · exact h.comfds r _
      · exact h.counted r
    | unlist => rfl

/-! ### The start of an event call -/

theorem initializeEvent (hl : p.live = true) : (dsuInitializeEvent K p).binds.map g = p.binds.map g := by
  have hlive : dsuGoLive K p = p := if_pos hl
  have hmon := walk_map (h.monitorFd K · · p.pgid) p.binds p.world
  unfold dsuInitializeEvent
  simp only [hlive]
  split
  · exact hmon
  · exact hmon

/-! ### `select` -/

theorem selectAsk (nfds : Int) (sets : FdSets) (timeout : Option Nat) :
    (OpenDSU.selectAsk K p nfds sets timeout).proc.binds.map g = p.binds.map g :=
  asks_map (fun r => h.locked r true) (selectAsk_asks K p nfds sets timeout)

theorem selectServe (found : FdSets) : (OpenDSU.selectServe K p found).2.2.binds.map g = p.binds.map g := by
  have hpost : ∀ r s, g (dsuPostSelect r s).1 = g r := by
    intro r s
    have hunlock := h.unlockFd r s.world
    unfold dsuPostSelect
    simp only
    split <;> exact hunlock
  have hconn := walk_map (fun r s => h.handles (dsuHandleConn_handles K r s)) p.binds (p.pass found.read 0)
  exact (walk_map hpost _ _).trans hconn

theorem selectRest (nfds : Int) (sets : FdSets) (timeout : Option Nat) :
    (OpenDSU.selectRest K p nfds sets timeout).1.binds.map g = p.binds.map g := by
  have hask := h.selectAsk K p nfds sets timeout
  unfold OpenDSU.selectRest
  simp only
  split
  · exact hask
  · exact (h.selectServe K _ _).trans hask

theorem selectRound (hl : p.live = true) (nfds : Int) (sets : FdSets) (timeout : Option Nat) :
    (OpenDSU.selectRound K p nfds sets timeout).1.binds.map g = p.binds.map g := by
  have hinit := h.initializeEvent K p hl
  unfold OpenDSU.selectRound
  simp only
  split
  · exact hinit
  · exact (h.selectRest K _ nfds sets timeout).trans hinit

/-! ### `ppoll` -/

theorem pollAsk (fds : List PollFd) : (OpenDSU.pollAsk K p fds).proc.binds.map g = p.binds.map g :=
  asks_map (fun r => h.locked r true) (pollAsk_asks K p fds)

theorem pollServe (fds' : Nat → PollFd) (nfds nfds' : Nat) :
    (OpenDSU.pollServe K p fds' nfds nfds').binds.map g = p.binds.map g :=
  (walk_map (h.unlockFd · ·) _ _).trans
    (walk_map (fun r s => h.handles (dsuHandleConnPoll_handles K r fds' nfds nfds' s)) _ _)

theorem ppollRest (fds : List PollFd) (timeout : Option Nat) :
    (OpenDSU.ppollRest K fds timeout p).1.binds.map g = p.binds.map g := by
  have hask := h.pollAsk K p fds
  unfold OpenDSU.ppollRest
  simp only
  split
  · exact hask
  · split
    · exact hask
    · split
      · exact (h.pollServe K _ _ _ _).trans hask
      · exact (h.pollServe K _ _ _ _).trans hask

/-! ### `epoll_wait` -/

theorem preEpoll (epfd : Int) : (dsuPreEpoll K epfd p.binds p.world).1.map g = p.binds.map g := by
  have hshadow : ∀ r w, g (dsuEpollShadowfd K epfd r w).1 = g r := by
    intro r w
    unfold dsuEpollShadowfd
    simp only
    split
    · split
      · rfl
      · rfl
      · exact h.locked r true
    · rfl
  exact (walk_map (f := dsuEpollInternalConn K epfd) (fun _ _ => rfl) _ _).trans (walk_map hshadow _ _)

theorem postEpoll (epollfd : Int) (es : List Event) (events : Nat → Event) :
    (dsuPostEpoll K epollfd p es events).1.binds.map g = p.binds.map g := by
  have horiginal : ∀ r w, g (dsuEpollOriginalfd K epollfd r w).1 = g r := by
    intro r w
    unfold dsuEpollOriginalfd
    split <;> rfl
  exact (walk_map horiginal _ _).trans ((walk_map (h.unlockFd · ·) _ _).trans
    (walk_map (fun r s => h.handles (dsuHandleConnEpoll_handles K r epollfd s)) _ _))

theorem epollRest (epfd : Int) (events : Nat → Event) (maxevents : Nat) (timeout : Option Nat) :
    (OpenDSU.epollRest K epfd events maxevents timeout p).1.binds.map g = p.binds.map g := by
  have hask := h.preEpoll K p epfd
  unfold OpenDSU.epollRest
  simp only
  split
  · exact (h.postEpoll K _ epfd _ events).trans hask
  · exact (h.postEpoll K _ epfd _ events).trans hask

end Untouched

end OpenDSU
