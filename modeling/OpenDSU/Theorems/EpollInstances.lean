import OpenDSU.Theorems.Interest

/-! Whether the epoll instances of a program keep a bound socket apart.

A record stores one event for all instances, and every `epoll_wait` handles every record that has one, whatever
instance it waits on. So a wait on one instance registers a socket that was added to another, and a deletion on
one instance changes how the waits on the others find the socket. -/

namespace OpenDSU.Registry

variable {K : Kernel} {s t : Registry}

/-- A kernel on which the semaphores of a wait behave in one way, and the status of the port is given. -/
def lockKernel (ok got : Bool) (st : Status) : Kernel :=
  { soloKernel with semWait := fun _ => ok, semTrywait := fun _ _ => got, status := fun _ _ => st }

/-- What an `epoll_wait` on the instance can return for the socket: the descriptor that is watched, and the event
    as the program gets it. -/
def receives (ok got : Bool) (st : Status) (s : Registry) (epfd : Int) : List (Int × EpollEvent) :=
  let asked := s.asked (lockKernel ok got st) epfd
  let event := fun ev => (epollRestore [asked.sock] { ev := ev, origin := none }).ev
  (asked.under epfd).map (fun ev => (asked.sock.fd, event ev)) ++
    (asked.world.interest epfd asked.sock.shadowfd).map fun ev => (asked.sock.shadowfd, event ev)

/-- An `epoll_wait` neither waits for nor leaves a socket that the program does not have on the instance, and
    deleting it from one instance changes nothing that the program receives from another. -/
def Isolated (K : Kernel) (s : Registry) : RegAct → Prop
  | .wait epfd r w => s.program epfd = none →
    (s.asked K epfd).entries epfd = [] ∧ ∀ t, s.step K (.wait epfd r w) = some t → t.entries epfd = []
  | .ctl epfd .del event => ∀ t, s.step K (.ctl epfd .del event) = some t →
    ∀ e, e ≠ epfd → s.program e ≠ none → ∀ ok got st, receives ok got st t e = receives ok got st s e
  | _ => True

/-- The record stores no event when the program waits on an instance without the socket. It deletes the socket
    while no other instance has it, or no event is stored; and the instance has it under one descriptor. -/
def Alone (s : Registry) : RegAct → Prop
  | .wait epfd _ _ => s.program epfd = none → s.sock.ev.events = 0
  | .ctl epfd .del _ => (s.sock.ev.events = 0 ∨ ∀ e, e ≠ epfd → s.program e = none) ∧
    (s.under epfd = [] ∨ s.world.interest epfd s.sock.shadowfd = [])
  | _ => True

/-- The invariant: an instance without the socket for the program has no registration of it. -/
structure Separate (s : Registry) : Prop where
  opened : s.Opened
  none : ∀ epfd, s.program epfd = none → s.entries epfd = []

theorem Agrees.separate (h : s.Agrees) : s.Separate :=
  ⟨⟨h.fd, h.shadowfd⟩, fun epfd hp => by rw [h.entries, hp, Option.toList_none]⟩

section Steps
variable (hK : ∀ w, K.epollCtl w = true)
include hK

theorem ctl_separate {epfd : Int} {op : EpollOp} {event : EpollEvent} (h : s.Separate)
    (ha : s.Alone (.ctl epfd op event)) (hs : s.step K (.ctl epfd op event) = some t) : t.Separate := by
  obtain ⟨-, hopened, hprogram, -, hunders, hinterest⟩ := ctl_spec hK h.opened hs
  refine ⟨hopened, fun e hp => ?_⟩
  rw [hprogram] at hp
  rw [Registry.entries, hunders, hinterest]
  by_cases he : e = epfd
  · subst he
    rw [if_pos rfl]
    cases hok : plainOk op (s.world.interest e s.sock.shadowfd)
    · rw [hok] at hp
      rw [plainSet_of_refused hok]
      exact h.none e hp
    · rw [hok, if_pos rfl, Function.update_self] at hp
      cases op with
      | add => cases hp
      | mod => cases hp
      | del =>
        have hne : s.world.interest e s.sock.shadowfd ≠ [] := by simpa [plainOk] using hok
        rw [ha.2.resolve_right hne]
        rfl
  · rw [if_neg he]
    refine h.none e ?_
    split at hp
    · rwa [Function.update_of_ne he] at hp
    · exact hp

theorem wait_separate {epfd : Int} {r : DsuSocket} {w : World} (h : s.Separate)
    (ha : s.Alone (.wait epfd r w)) (hs : s.step K (.wait epfd r w) = some t) : t.Separate := by
  obtain ⟨hkeeps, hother, hnone, -⟩ := wait_spec hK h.opened hs
  refine ⟨h.opened.keeps hkeeps, fun e hp => ?_⟩
  rw [hkeeps.program] at hp
  by_cases he : e = epfd
  · subst he
    rw [((hnone (ha hp)).entries hkeeps).2]
    exact h.none e hp
  · rw [((hother e he).entries hkeeps).2]
    exact h.none e hp

theorem step_separate {a : RegAct} (h : s.Separate) (ha : s.Alone a) (hs : s.step K a = some t) : t.Separate := by
  cases a with
  | ctl epfd op event => exact ctl_separate hK h ha hs
  | wait epfd r w => exact wait_separate hK h ha hs
  | turn r w =>
    cases Option.some.inj hs
    have hkeeps := elsewhere_keeps s r w
    refine ⟨h.opened.keeps hkeeps, fun e hp => ?_⟩
    rw [((elsewhere_still s r w e).entries hkeeps).2]
    exact h.none e (hkeeps.program ▸ hp)

omit hK in
/-- Where no event is stored, a wait returns what is registered. -/
theorem receives_of_none (h : s.sock.ev.events = 0) (ho : s.Opened) (ok got : Bool) (st : Status) (epfd : Int) :
    receives ok got st s epfd = (s.under epfd).map (fun ev => (s.sock.fd, ev)) ++
      (s.world.interest epfd s.sock.shadowfd).map fun ev => (s.sock.shadowfd, ev) := by
  have hasked : s.asked (lockKernel ok got st) epfd = s := (asked_spec (fun _ => rfl) ho epfd).2.2.1 h
  have hrestore : ∀ ev, (epollRestore [s.sock] { ev := ev, origin := none }).ev = ev := by
    intro ev
    unfold epollRestore
    split
    · rename_i r hr
      have hr : r = s.sock := by simpa using List.mem_of_find?_eq_some hr
      rw [hr, if_neg (by simp [h])]
    · rfl
  simp only [receives, hasked, hrestore]

/-- A deletion leaves the other instances what they have, if no event was stored. -/
theorem del_receives {epfd e : Int} {event : EpollEvent} (ho : s.Opened) (hev : s.sock.ev.events = 0)
    (hs : s.step K (.ctl epfd .del event) = some t) (he : e ≠ epfd) (ok got : Bool) (st : Status) :
    receives ok got st t e = receives ok got st s e := by
  obtain ⟨-, hopened, -, hsock, hunders, hinterest⟩ := ctl_spec hK ho hs
  have hnone : t.sock.ev.events = 0 := by
    rw [hsock]
    rfl
  rw [receives_of_none hnone hopened, receives_of_none hev ho, hunders, hinterest, if_neg he, hsock]

theorem step_isolated {a : RegAct} (h : s.Separate) (ha : s.Alone a) : s.Isolated K a := by
  cases a with
  | wait epfd r w =>
    intro hp
    have hasked : s.asked K epfd = s := (asked_spec hK h.opened epfd).2.2.1 (ha hp)
    refine ⟨by rw [hasked, h.none epfd hp], fun t hs => ?_⟩
    refine (wait_separate hK h ha hs).none epfd ?_
    rw [(wait_spec hK h.opened hs).1.program, hp]
  | ctl epfd op event =>
    cases op with
    | add => trivial
    | mod => trivial
    | del =>
      intro t hs e he hp
      rcases ha.1 with hev | hother
      · exact del_receives hK h.opened hev hs he
      · exact absurd (hother e he) hp
  | turn r w => trivial

/-- In a run whose steps leave the stored event alone the instances are isolated. -/
theorem isolated_steps (h : s.Agrees) {as : List RegAct} (ha : (registryMachine K).Steps Alone s as) :
    (registryMachine K).Steps (Isolated K) s as :=
  Machine.Steps.imp (I := Separate) (fun _ _ _ h ha hs => step_separate hK h ha hs)
    (fun _ _ _ h ha _ => step_isolated hK h ha) h.separate ha

end Steps

/-- A program that moves its socket from one instance to another. -/
theorem isolated_on_move : (registryMachine soloKernel).Steps (Isolated soloKernel) (bound 3)
    [.ctl 8 .add readable, .wait 8 (bound 3).sock (bound 3).world, .ctl 8 .del noEvent, .ctl 9 .add writable,
      .wait 9 (bound 3).sock (bound 3).world] := by
  refine isolated_steps (fun _ => rfl) (bound_agrees (Or.inl rfl)) fun _ hs => ?_
  cases hs
  refine ⟨trivial, fun _ hs => ?_⟩
  cases hs
  refine ⟨fun h => absurd h (by decide), fun _ hs => ?_⟩
  cases hs
  refine ⟨⟨Or.inr fun e he => ?_, Or.inl (by decide)⟩, fun _ hs => ?_⟩
  · exact Function.update_of_ne he _ _
  cases hs
  refine ⟨trivial, fun _ hs => ?_⟩
  cases hs
  exact ⟨fun h => absurd h (by decide), trivial⟩

/-- A wait on the instance 9 registers the socket that the program has added to the instance 8. And where it has
    added the socket to both and has stopped monitoring, the deletion from 8 makes 9 return it again. -/
theorem instances_mixed : ∃ s t u v, (registryMachine soloKernel).run (bound 3) [.ctl 8 .add readable] = some s ∧
    s.step soloKernel (.wait 9 s.sock s.world) = some t ∧ t.program 9 = none ∧ t.entries 9 = [readable] ∧
    ¬s.Isolated soloKernel (.wait 9 s.sock s.world) ∧
    (registryMachine soloKernel).run (bound 3) [.ctl 8 .add readable, .ctl 9 .add readable,
      .turn { (bound 3).sock with monitoring := false } (bound 3).world] = some u ∧
    u.step soloKernel (.ctl 8 .del noEvent) = some v ∧
    receives true true ⟨1, 0, 0⟩ u 9 = [] ∧ receives true true ⟨1, 0, 0⟩ v 9 = [(3, readable)] ∧
    ¬u.Isolated soloKernel (.ctl 8 .del noEvent) := by
  refine ⟨_, _, _, _, rfl, rfl, by decide, by decide, fun h => ?_, rfl, rfl, by decide, by decide, fun h => ?_⟩
  · exact absurd ((h (by decide)).2 _ rfl) (by decide)
  · exact absurd (h _ rfl 9 (by decide) (by decide) true true ⟨1, 0, 0⟩) (by decide)

end OpenDSU.Registry
