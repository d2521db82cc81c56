import OpenDSU.Loops

/-! What `dsu_epoll_correct_events` makes of the array of events, for every result of the wait. -/

namespace OpenDSU

variable {binds : List DsuSocket}

/-- A state of the nested loops with the types of the source. -/
def CorrectEvents.ofCompacting (s : Compacting Event) : CorrectEvents where
  test :=
    match s.cursor with
    | .scan i => .outer i
    | .shift i j => .inner i j
  nfds := s.bound
  events := s.buf

/-- One pass of the loops of `dsu_epoll_correct_events` is one pass of a compaction. -/
theorem correctPass_eq {n : Nat} {s : Compacting Event} (hs : s.Within n) :
    correctPass binds (.ofCompacting s) =
      (compactPass (fun _ b => b) (fun e => dsuIsInternalConn binds e.ev.data.fd) (epollRestore binds) 0 s).map
        CorrectEvents.ofCompacting := by
  obtain ⟨cursor, bound, buf⟩ := s
  cases cursor with
  | scan i =>
    simp only [correctPass, CorrectEvents.ofCompacting, compactPass, Int.toNat_natCast, Int.ofNat_lt]
    by_cases htest : i < bound
    · rw [if_pos htest, if_pos htest]
      by_cases hd : dsuIsInternalConn binds (buf i).ev.data.fd = true <;> simp [hd, CorrectEvents.ofCompacting]
    · rw [if_neg htest, if_neg htest]
      rfl
  | shift i j =>
    obtain ⟨-, -, hi, -⟩ := hs
    simp only at hi
    have hnext : ((j : Int) + 1).toNat = j + 1 := by omega
    simp only [correctPass, CorrectEvents.ofCompacting, compactPass, Int.toNat_natCast]
    have htests : (j : Int) < (bound : Int) - 1 ↔ j + 1 < bound := by omega
    by_cases htest : j + 1 < bound
    · simp [htests, htest, hnext, CorrectEvents.ofCompacting]
    · have hlower : (bound : Int) - 1 = ((bound - 1 : Nat) : Int) := by omega
      simp [htest, hlower, CorrectEvents.ofCompacting]
      omega

/-- The loops end, in what `dsuEpollCorrectEvents` computes. -/
theorem correct_ends (n : Nat) (events : Nat → Event) :
    let r := dsuEpollCorrectEvents binds n events
    Ends (correctPass binds) { test := .outer 0, nfds := n, events := events }
      { test := .outer r.1, nfds := r.1, events := r.2 } := by
  have hends := compact_ends (fun _ b => b) (fun e => dsuIsInternalConn binds e.ev.data.fd) (epollRestore binds) 0 0 n events
  rw [Nat.zero_add] at hends
  have hstart : Compacting.Within n ⟨.scan 0, n, events⟩ := ⟨Nat.le_refl _, Nat.zero_le _⟩
  exact hends.map (fun _ _ hs => Compacting.Within.pass (Nat.zero_le 1) hs) (fun _ => correctPass_eq) hstart

/-- The event with its mask, and with the data of the first record whose shadow descriptor it names, if that has a
registered event. -/
def Event.restored (binds : List DsuSocket) (e : Event) : Event :=
  let data :=
    match binds.find? (·.shadowfd == e.ev.data.fd) with
    | some r => if r.ev.events ≠ 0 then r.ev.data else e.ev.data
    | none => e.ev.data
  { e with ev := { events := e.ev.events, data := data } }

theorem epollRestore_eq_restored (e : Event) : epollRestore binds e = e.restored binds := by
  unfold epollRestore Event.restored dsuSocketsSearchShadowfd
  cases binds.find? (·.shadowfd == e.ev.data.fd) with
  | none => rfl
  | some r => by_cases h : r.ev.events ≠ 0 <;> simp [h]

theorem dsuEpollCorrectEvents_spec (n : Nat) (events : Nat → Event) :
    let r := dsuEpollCorrectEvents binds n events
    let kept := ((slice events 0 n).filter fun e => !dsuIsInternalConn binds e.ev.data.fd).map (Event.restored binds)
    r.1 = kept.length ∧ slice r.2 0 kept.length = kept := by
  have hrestore : epollRestore binds = Event.restored binds := funext epollRestore_eq_restored
  have hmove : ∀ a b : Event, id ((fun _ b => b) a b) = id b := fun _ _ => rfl
  have hdrop : ∀ e : Event, dsuIsInternalConn binds e.ev.data.fd = dsuIsInternalConn binds (id e).ev.data.fd :=
    fun _ => rfl
  have hkeep : ∀ e : Event, id (e.restored binds) = (id e).restored binds := fun _ => rfl
  obtain ⟨hlen, hslice, -⟩ := compact_spec 0 id (fun e => dsuIsInternalConn binds e.ev.data.fd) (Event.restored binds)
    hmove hdrop hkeep 0 n events
  rw [Nat.zero_add] at hlen
  unfold dsuEpollCorrectEvents
  rw [hrestore]
  exact ⟨hlen, hslice⟩

/-- `dsu_epoll_correct_events` ends. It returns an `nfds` that is not positive, with the array as it was; else the number
of the events that are not internal, and these are then the first of the array, in their order and with the data of the
program. -/
theorem correctEvents_filterMap (nfds : Int) (events : Nat → Event) :
    let kept := ((slice events 0 nfds.toNat).filter fun e => !dsuIsInternalConn binds e.ev.data.fd).map
      (Event.restored binds)
    ∃ i n out, Ends (correctPass binds) { test := .outer 0, nfds := nfds, events := events }
        { test := .outer i, nfds := n, events := out } ∧
      n = (if nfds ≤ 0 then nfds else kept.length) ∧ slice out 0 kept.length = kept := by
  intro kept
  by_cases hnfds : nfds ≤ 0
  · have hnone : kept = [] := by simp [kept, Int.toNat_of_nonpos hnfds]
    have hstop : correctPass binds { test := .outer 0, nfds := nfds, events := events } = none :=
      if_neg (Int.not_lt.mpr hnfds)
    exact ⟨0, nfds, events, .done hstop, (if_pos hnfds).symm, by simp [hnone]⟩
  · obtain ⟨m, rfl⟩ := Int.eq_ofNat_of_zero_le (by omega : 0 ≤ nfds)
    obtain ⟨hlen, hslice⟩ := @dsuEpollCorrectEvents_spec binds m events
    refine ⟨_, _, _, correct_ends m events, ?_, hslice⟩
    rw [if_neg hnfds]
    exact congrArg Nat.cast hlen

end OpenDSU
