import OpenDSU.Theorems.Interest

/-! Whether the registration of a bound socket is what plain epoll would have.

`epoll_ctl` acts on `shadowfd`, but an `epoll_wait` leaves the socket registered under `fd`, so that the next
`epoll_ctl` misses it where the two differ. And the event of a call is stored also where epoll refuses the call;
the next `epoll_wait` registers it. -/

namespace OpenDSU.Registry

variable {K : Kernel} {s t : Registry}

/-- `epoll_ctl` answers as plain epoll does, and outside of an `epoll_wait` the instances have what the program
    has registered. -/
def Transparent (K : Kernel) (s : Registry) (a : RegAct) : Prop :=
  (∀ epfd op event, a = .ctl epfd op event →
    (epollCtlBound K epfd op event s.sock s.world).1 = plainOk op (s.program epfd).toList) ∧
  ∀ t, s.step K a = some t → ∀ epfd, t.entries epfd = (t.program epfd).toList

/-- The instance does not have the socket under an `fd` that is not the `shadowfd` when it is changed, and what an
    `epoll_wait` has stored is what the program has set. -/
def Plain (s : Registry) : RegAct → Prop
  | .ctl epfd _ _ => s.under epfd = []
  | .wait epfd _ _ => s.sock.ev.events ≠ 0 → s.program epfd = some s.sock.ev
  | .turn .. => True

theorem Agrees.opened (h : s.Agrees) : s.Opened := ⟨h.fd, h.shadowfd⟩

/-- What plain epoll makes of one registration is what the program takes it to be. -/
theorem plainSet_toList (op : EpollOp) (event : EpollEvent) (e : Option EpollEvent) :
    plainSet op event e.toList = (if plainOk op e.toList then registered op event else e).toList := by
  cases op <;> cases e <;> rfl

/-- Of one registration, one of the two descriptors has none. -/
theorem append_toList {α : Type} {l l' : List α} {e : Option α} (h : l ++ l' = e.toList) (hne : l ≠ []) :
    l' = [] ∧ e.isSome = true := by
  cases e with
  | none => exact absurd (List.append_eq_nil_iff.mp h).1 hne
  | some x =>
    rw [Option.toList_some, List.append_eq_singleton_iff] at h
    rcases h with ⟨hnil, -⟩ | ⟨-, hnil⟩
    · exact absurd hnil hne
    · exact ⟨hnil, rfl⟩

theorem plainOk_ne (op : EpollOp) {e : Option EpollEvent} (h : e.isSome = true) : plainOk op [] ≠ plainOk op e.toList := by
  obtain ⟨x, rfl⟩ := Option.isSome_iff_exists.mp h
  cases op <;> simp [plainOk]

section Steps
variable (hK : ∀ w, K.epollCtl w = true)
include hK

theorem step_opened {a : RegAct} (ho : s.Opened) (hs : s.step K a = some t) : t.Opened := by
  cases a with
  | ctl epfd op event => exact (ctl_spec hK ho hs).2.1
  | wait epfd r w => exact ho.keeps (wait_spec hK ho hs).1
  | turn r w =>
    cases Option.some.inj hs
    exact ho.keeps (elsewhere_keeps s r w)

/-- An operation is transparent just where the instance has nothing under a `fd` that it misses. -/
theorem ctl_transparent_iff (epfd : Int) (op : EpollOp) (event : EpollEvent) (h : s.Agrees) :
    s.Transparent K (.ctl epfd op event) ↔ s.under epfd = [] := by
  have hspec := fun t (hs : s.step K (.ctl epfd op event) = some t) => ctl_spec hK h.opened hs
  have hentries := h.entries epfd
  constructor
  · rintro ⟨hok, -⟩
    have hanswer := (hspec _ rfl).1.symm.trans (hok epfd op event rfl)
    by_contra hne
    obtain ⟨hnil, hsome⟩ := append_toList hentries hne
    rw [hnil] at hanswer
    exact plainOk_ne op hsome hanswer
  · intro hunder
    have hshadow : s.world.interest epfd s.sock.shadowfd = (s.program epfd).toList := by
      rw [← hentries, Registry.entries, hunder, List.nil_append]
    refine ⟨?_, fun t hs e => ?_⟩
    · rintro _ _ _ ⟨⟩
      rw [(hspec _ rfl).1, hshadow]
    · obtain ⟨-, -, hprogram, -, hunders, hinterest⟩ := hspec t hs
      rw [Registry.entries, hunders, hinterest, hprogram, hshadow, plainSet_toList]
      by_cases he : e = epfd
      · rw [he, hunder, if_pos rfl, List.nil_append]
        split <;> simp
      · rw [if_neg he, ← Registry.entries, h.entries]
        split
        · rw [Function.update_of_ne he]
        · rfl

/-- A wait is transparent just where it puts back what the program has set. -/
theorem wait_transparent_iff (epfd : Int) (r : DsuSocket) (w : World) (h : s.Agrees) :
    s.Transparent K (.wait epfd r w) ↔ (s.sock.ev.events ≠ 0 → s.program epfd = some s.sock.ev) := by
  have hspec := fun t (hs : s.step K (.wait epfd r w) = some t) => wait_spec hK h.opened hs
  constructor
  · rintro ⟨-, hafter⟩ hev
    obtain ⟨hkeeps, -, -, hentries⟩ := hspec _ rfl
    have hone := hafter _ rfl epfd
    rw [hentries hev, hkeeps.program] at hone
    cases hp : s.program epfd with
    | none => simp [hp] at hone
    | some e =>
      rw [hp, Option.toList_some, List.singleton_inj] at hone
      rw [hone]
  · intro hstored
    refine ⟨(fun _ _ _ ha => nomatch ha), fun t hs e => ?_⟩
    obtain ⟨hkeeps, hother, hnone, hentries⟩ := hspec t hs
    rw [hkeeps.program, ← h.entries e]
    by_cases he : e = epfd
    · rw [he]
      by_cases hev : s.sock.ev.events = 0
      · exact ((hnone hev).entries hkeeps).2
      · rw [hentries hev, h.entries, hstored hev]
        rfl
    · exact ((hother e he).entries hkeeps).2

theorem transparent_iff {a : RegAct} (h : s.Agrees) : s.Transparent K a ↔ s.Plain a := by
  cases a with
  | ctl epfd op event => exact ctl_transparent_iff hK epfd op event h
  | wait epfd r w => exact wait_transparent_iff hK epfd r w h
  | turn r w =>
    refine ⟨fun _ => trivial, fun _ => ⟨(fun _ _ _ ha => nomatch ha), fun t hs e => ?_⟩⟩
    cases Option.some.inj hs
    exact ((elsewhere_still s r w e).entries (elsewhere_keeps s r w)).2.trans (h.entries e)

theorem step_agrees {a : RegAct} (h : s.Agrees) (ha : s.Transparent K a) (hs : s.step K a = some t) : t.Agrees :=
  have ho := step_opened hK h.opened hs
  ⟨ho.1, ho.2, ha.2 t hs⟩

/-- A run is transparent if and only if each of its calls finds the socket under `shadowfd` and each of its waits
    puts back what the program has set. -/
theorem transparent_steps_iff (h : s.Agrees) (as : List RegAct) :
    (registryMachine K).Steps (Transparent K) s as ↔ (registryMachine K).Steps Plain s as := by
  constructor
  · exact Machine.Steps.imp (I := Agrees) (fun _ _ _ h ha hs => step_agrees hK h ha hs)
      (fun _ _ _ h ha _ => (transparent_iff hK h).mp ha) h
  · exact Machine.Steps.imp (I := Agrees) (fun _ _ _ h ha hs => step_agrees hK h ((transparent_iff hK h).mpr ha) hs)
      (fun _ _ _ h ha _ => (transparent_iff hK h).mpr ha) h

end Steps

instance (s : Registry) : (a : RegAct) → Decidable (Plain s a)
  | .ctl .. => inferInstanceAs (Decidable (_ = _))
  | .wait .. => inferInstanceAs (Decidable (_ → _))
  | .turn .. => .isTrue trivial

/-- A program that adds its socket once, changes it and waits. -/
theorem transparent_on_own_socket : (registryMachine soloKernel).Steps (Transparent soloKernel) (bound 3)
    [.ctl 9 .add readable, .wait 9 (bound 3).sock (bound 3).world, .ctl 9 .mod writable, .ctl 9 .del noEvent] :=
  (transparent_steps_iff (fun _ => rfl) (bound_agrees (Or.inl rfl)) _).mpr (by decide)

/-- After a wait the changes of an inherited socket fail and it can be added a second time; and a change that is
    refused is registered by the next wait. -/
theorem registration_lost : ∃ s t u, (registryMachine soloKernel).run (bound 6)
      [.ctl 9 .add readable, .wait 9 (bound 6).sock (bound 6).world] = some s ∧ s.program 9 = some readable ∧
    (epollCtlBound soloKernel 9 .mod writable s.sock s.world).1 = false ∧
    (epollCtlBound soloKernel 9 .add writable s.sock s.world).1 = true ∧ ¬s.Transparent soloKernel (.ctl 9 .mod writable) ∧
    (registryMachine soloKernel).run (bound 3) [.ctl 9 .mod readable] = some t ∧ t.entries 9 = [] ∧
    t.step soloKernel (.wait 9 t.sock t.world) = some u ∧ u.program 9 = none ∧ u.entries 9 = [readable] ∧
    ¬t.Transparent soloKernel (.wait 9 t.sock t.world) := by
  refine ⟨_, _, _, rfl, by decide, by decide, by decide, fun h => ?_, rfl, by decide, rfl, by decide, by decide,
    fun h => ?_⟩
  · exact absurd (h.1 9 .mod writable rfl) (by decide)
  · exact absurd (h.2 _ rfl 9) (by decide)

end OpenDSU.Registry
