import OpenDSU.Theorems.Retiring

/-! When an update of a port can be completed. The superseded processes can terminate one after another, without harm to the
hand-overs of the others, unless one of them holds a stranded connection. As in `retires_iff`, nothing is handed over that
has only got the number of a closed `comfd`. -/

namespace OpenDSU.RequestState
open Function

/-- Who is left is not superseded, and one of them listens on the abstract name. -/
def Updated (s : RequestState) : Prop :=
  (∀ p o, s.hosts p = some o → s.status.version ≤ o.sock.version) ∧
  ∃ p o, s.hosts p = some o ∧ o.sock.monitoring = true ∧ o.com = some .name

/-- The process is superseded. -/
def Superseded (s : RequestState) (p : Nat) : Prop := ∃ o, s.hosts p = some o ∧ o.sock.version < s.status.version

/-- No superseded process holds a stranded connection. -/
def Clear (s : RequestState) : Prop :=
  ∀ p o, s.hosts p = some o → o.sock.version < s.status.version → ∀ c ∈ o.comfds, ¬s.Stranded c

variable {s t : RequestState} {p c : Nat} {o : Host} {x : Conn}

/-! ### Retiring does no harm -/

/-- A process that is superseded after such a step was so before, with the connections that it holds. -/
theorem Concludes.back {a : RequestAct} (h : s.Concludes a) (hsound : s.Sound) (hs : s.step a = some t) {o' : Host}
    (ho' : t.hosts p = some o') (hv : o'.sock.version < t.status.version) :
    ∃ o, s.hosts p = some o ∧ o.sock.version < s.status.version ∧ o'.comfds.Sublist o.comfds := by
  -- Where no version changes.
  have of_move : t.status.version = s.status.version ∧ HostsMove s t →
      ∃ o, s.hosts p = some o ∧ o.sock.version < s.status.version ∧ o'.comfds.Sublist o.comfds := by
    rintro ⟨hst, hmove⟩
    obtain ⟨o, ho, hsame, hsub⟩ := hmove.back ho' hv
    exact ⟨o, ho, by rw [← hsame, ← hst]; exact hv, hsub⟩
  cases h with
  | completes h => exact of_move (h.moves hsound hs)
  | setLocked locked h =>
    obtain ⟨o, hq, -, rfl⟩ := setLocked_inv hs
    exact of_move ⟨rfl, .stored hq rfl rfl (List.Sublist.refl _)⟩
  | monitor h =>
    obtain ⟨o, hq, -, rfl⟩ := monitor_inv hs
    obtain ⟨o₀, hq₀, hold, -⟩ := h
    obtain rfl : o = o₀ := Option.some.inj (hq.symm.trans hq₀)
    obtain ⟨hst, hsock, -⟩ := monitorSection_superseded o.pgid hold
    exact of_move ⟨hst, .stored hq rfl hsock (List.Sublist.refl _)⟩
  | exit h =>
    obtain ⟨o, -, -, -, -, -, rfl⟩ := exit_inv hs
    exact ⟨o', (update_none_eq_some.mp ho').2, hv, List.Sublist.refl _⟩

/-- Who stops monitoring without a connection answers nobody. -/
theorem Concludes.not_strands {a : RequestAct} (h : s.Concludes a) (hx : s.conns c = some x) (hno : ¬s.Stranded c) :
    ¬s.Strands c x a := by
  cases h with
  | completes h => exact h.not_strands hx
  | setLocked | exit => rintro ⟨p, o, -, ⟨he, -⟩ | ⟨he, -⟩⟩ <;> cases he
  | monitor h =>
    rintro ⟨p, o, -, ⟨he, -, hacc, hlt, hall⟩ | ⟨he, -⟩⟩
    · cases he
      obtain ⟨o₀, hq, -, hnil⟩ := h
      refine hno ⟨x, hx, hacc, hlt, fun q o ho hm => ?_⟩
      obtain rfl := hall q o ho hm
      obtain rfl : o = o₀ := Option.some.inj (ho.symm.trans hq)
      have hin := hm.1
      rw [hnil] at hin
      cases hin
    · cases he

/-- What such a step keeps: no superseded process comes to hold a stranded connection, and none is added. -/
theorem Clear.step {a : RequestAct} (h : s.Clear) (hr : genuineMachine.Reachable s) (ha : s.Concludes a)
    (hs : s.step a = some t) : t.Clear ∧ ∀ q, t.Superseded q → s.Superseded q := by
  obtain ⟨hsound, -⟩ := sound_of_reachable hr.of_guard
  constructor
  · intro p o' ho' hv c hc hstranded
    obtain ⟨o, ho, hold, hsub⟩ := ha.back hsound hs ho' hv
    have hno := h p o ho hold c (hsub.subset hc)
    obtain ⟨x, hx, -⟩ := (hsound.hosts p o ho).comfds c (hsub.subset hc)
    exact ha.not_strands hx hno (strands_of_stranded hr.of_guard hx hno hs hstranded)
  · rintro q ⟨o', ho', hv⟩
    obtain ⟨o, ho, hold, -⟩ := ha.back hsound hs ho' hv
    exact ⟨o, ho, hold⟩

/-- A state on the way from `s`. -/
structure After (s t : RequestState) : Prop where
  reachable : genuineMachine.Reachable t
  clear : t.Clear
  superseded : ∀ q, t.Superseded q → s.Superseded q

theorem After.step {u : RequestState} {a : RequestAct} (h : After s t) (ha : t.Concludes a)
    (hs : genuineMachine.step t a = some u) : After s u := by
  obtain ⟨hclear, hback⟩ := h.clear.step h.reachable ha (Machine.guard_step_iff.mp hs).2
  exact ⟨reachable_step h.reachable hs, hclear, fun q hq => h.superseded q (hback q hq)⟩

/-- One superseded process terminates. -/
theorem Clear.retire (h : s.Clear) (hr : genuineMachine.Reachable s) (hp : s.Superseded p) :
    genuineMachine.Can Concludes (fun t => After s t ∧ t.hosts p = none) s := by
  obtain ⟨o, ho, hv⟩ := hp
  have hret : Retiring p o.comfds s o := ⟨ho, hv, .refl _, h p o ho hv⟩
  have hstart : After s s := ⟨hr, h, fun _ hq => hq⟩
  have hdrain : genuineMachine.Can Concludes (fun t => ∃ o', Retiring p [] t o' ∧ o'.task = .idle) s :=
    (hret.drains hr).weaken fun _ _ => .completes
  have hexit : genuineMachine.Can Concludes (fun t => t.hosts p = none) s :=
    hdrain.bind (R := fun _ => True) (fun _ _ _ _ _ _ => trivial) trivial fun _ _ ⟨_, hret', hi⟩ => hret'.exits hi
  exact hexit.bind (R := After s) (fun _ _ _ => After.step) hstart fun _ ht hnone => .here ⟨ht, hnone⟩

/-- All of them terminate, one after another. -/
theorem Clear.retire_all (l : List Nat) (h : s.Clear) (hr : genuineMachine.Reachable s)
    (hl : ∀ p, s.Superseded p → p ∈ l) :
    genuineMachine.Can (fun _ _ => True) (fun t => genuineMachine.Reachable t ∧ ∀ p, ¬t.Superseded p) s := by
  induction l generalizing s with
  | nil => exact .here ⟨hr, fun p hp => nomatch hl p hp⟩
  | cons p l ih =>
    by_cases hp : s.Superseded p
    · refine ((h.retire hr hp).weaken fun _ _ _ => trivial).bind (R := fun _ => True) (fun _ _ _ _ _ _ => trivial) trivial
        fun t _ ⟨hafter, hnone⟩ => ih hafter.clear hafter.reachable fun q hq => ?_
      rcases List.mem_cons.mp (hl q (hafter.superseded q hq)) with rfl | hq'
      · obtain ⟨o, ho, -⟩ := hq
        rw [hnone] at ho
        cases ho
      · exact hq'
    · refine ih h hr fun q hq => ?_
      rcases List.mem_cons.mp (hl q hq) with rfl | hq'
      · exact absurd hq hp
      · exact hq'

/-! ### Who is superseded stays so -/

theorem monitorSection_version_le (pgid : Int) (st : Status) (sock : DsuSocket) :
    st.version ≤ (monitorSection pgid st sock).1.version ∧ (monitorSection pgid st sock).2.version = sock.version := by
  rcases monitorSection_cases pgid st sock with ⟨-, he⟩ | ⟨-, -, he⟩ | ⟨-, -, he⟩ <;> rw [he]
  · exact ⟨Int.le_refl _, rfl⟩
  · exact ⟨by simp only; omega, rfl⟩
  · exact ⟨Int.le_refl _, rfl⟩

/-- The version of a process never changes, and that of the port never falls. -/
theorem step_version {a : RequestAct} {o' : Host} (hsound : s.Sound) (hs : s.step a = some t) (ho : s.hosts p = some o)
    (ho' : t.hosts p = some o') : s.status.version ≤ t.status.version ∧ o'.sock.version = o.sock.version := by
  -- A process whose record is stored again.
  have stored : ∀ {q : Nat} {o₁ o₂ : Host}, s.hosts q = some o₁ → update s.hosts q (some o₂) p = some o' →
      o₂.sock.version = o₁.sock.version → o'.sock.version = o.sock.version := by
    intro q o₁ o₂ hq ho' hv
    rcases update_eq_some.mp ho' with ⟨rfl, rfl⟩ | ⟨-, ho'⟩
    · obtain rfl : o = o₁ := Option.some.inj (ho.symm.trans hq)
      exact hv
    · obtain rfl : o = o' := Option.some.inj (ho.symm.trans ho')
      rfl
  -- A process whose record is not stored.
  have kept : s.hosts p = some o' → o'.sock.version = o.sock.version := fun ho' => by
    obtain rfl : o = o' := Option.some.inj (ho.symm.trans ho')
    rfl
  by_cases hc : s.Completes a
  · obtain ⟨hst, hmove⟩ := hc.moves hsound hs
    obtain ⟨o₁, ho₁, hv, -⟩ := hmove.host ho
    obtain rfl : o' = o₁ := Option.some.inj (ho'.symm.trans ho₁)
    exact ⟨by omega, hv⟩
  cases a with
  | connect pgid =>
    obtain ⟨-, rfl⟩ := connect_inv hs
    exact ⟨Int.le_refl _, kept ho'⟩
  | accept q d =>
    obtain ⟨o₁, y, hq, -, -, -, -, -, -, rfl⟩ := accept_inv hs
    exact ⟨Int.le_refl _, stored hq ho' rfl⟩
  | fork q =>
    obtain ⟨o₁, -, -, rfl⟩ := fork_inv hs
    exact ⟨Int.le_refl _, kept ((update_of_ne (Nat.ne_of_lt (hsound.hosts p o ho).started) ..).symm.trans ho')⟩
  | monitor q =>
    obtain ⟨o₁, hq, -, rfl⟩ := monitor_inv hs
    obtain ⟨hle, hv⟩ := monitorSection_version_le o₁.pgid s.status o₁.sock
    exact ⟨hle, stored hq ho' hv⟩
  | setLocked q locked =>
    obtain ⟨o₁, hq, -, rfl⟩ := setLocked_inv hs
    exact ⟨Int.le_refl _, stored hq ho' rfl⟩
  | reuse q opened =>
    obtain ⟨o₁, hq, -, -, -, rfl⟩ := reuse_inv hs
    exact ⟨Int.le_refl _, stored hq ho' rfl⟩
  | exit q =>
    obtain ⟨o₁, -, -, -, -, -, rfl⟩ := exit_inv hs
    exact ⟨Int.le_refl _, kept (update_none_eq_some.mp ho').2⟩
  | recv q d =>
    obtain ⟨o₁, y, hq, -, -, -, ⟨-, rfl⟩ | ⟨-, -, rfl⟩⟩ := recv_inv hs
    · exact ⟨Int.le_refl _, stored hq ho' rfl⟩
    · exact ⟨Int.le_refl _, stored hq ho' rfl⟩
  | send | count | writeShadow | writeCom | read | hangUp | inherit => exact absurd trivial hc

/-- A superseded process that holds a stranded connection stays superseded, and does not terminate. -/
theorem Superseded.run {as : List RequestAct} (hr : genuineMachine.Reachable s) (h : s.Superseded p) (hh : s.Holds p c)
    (hc : s.Stranded c) (hrun : genuineMachine.run s as = some t) : t.Superseded p := by
  have keep : ∀ u a v, genuineMachine.Reachable u ∧ u.Stranded c ∧ u.Holds p c ∧ u.Superseded p →
      genuineMachine.step u a = some v → genuineMachine.Reachable v ∧ v.Stranded c ∧ v.Holds p c ∧ v.Superseded p := by
    rintro u a v ⟨hu, hst, hhold, o, ho, hv⟩ hs
    obtain ⟨hsound, -⟩ := sound_of_reachable hu.of_guard
    obtain ⟨x, hx, hopen⟩ := hst.isOpen hsound ((unstrayed_of_reachable hu).sent c)
    have hu' := hu.step a hs
    obtain ⟨-, hs⟩ := Machine.guard_step_iff.mp hs
    have hhold' := step_holds hsound hx hopen hhold hs
    obtain ⟨o', ho', hin⟩ := hhold'
    obtain ⟨hle, hsame⟩ := step_version hsound hs ho ho'
    exact ⟨hu', step_stranded hst hsound hs, ⟨o', ho', hin⟩, o', ho', by omega⟩
  exact (Machine.run_invariant keep ⟨hr, hc, hh, h⟩ hrun).2.2.2

/-- From a reachable state the update can be completed if and only if no superseded process holds a stranded connection. -/
theorem update_completes_iff (hr : genuineMachine.Reachable s) :
    (∃ as t, genuineMachine.run s as = some t ∧ t.Updated) ↔ s.Clear := by
  constructor
  · rintro ⟨as, t, hrun, hcurrent, -⟩ p o ho hv c hc hstranded
    obtain ⟨o', ho', hlt⟩ := Superseded.run hr ⟨o, ho, hv⟩ ⟨o, ho, hc⟩ hstranded hrun
    have := hcurrent p o' ho'
    omega
  · intro hclear
    have hl : ∀ p, s.Superseded p → p ∈ List.range s.pids := fun p ⟨o, ho, _⟩ =>
      List.mem_range.mpr ((sound_of_reachable hr.of_guard).1.hosts p o ho).started
    obtain ⟨as, t, hrun, -, ht, hnone⟩ := hclear.retire_all (List.range s.pids) hr hl
    obtain ⟨b, -, hat, -⟩ := at_of_reachable ht
    obtain ⟨p, o, ho, hm, -, hcom⟩ := hat.listener
    refine ⟨as, t, hrun, fun q o' hq => ?_, p, o, ho, hm, hcom⟩
    by_contra hlt
    exact hnone q ⟨o', hq, by omega⟩

/-- The second version has taken over from two processes of the first, which have not closed their connection yet. -/
theorem update_completes_iff_forked : ∃ s, genuineMachine.Reachable s ∧ s.Superseded 0 ∧ s.Superseded 2 ∧ s.Holds 2 1 ∧
    ((∃ as t, genuineMachine.run s as = some t ∧ t.Updated) ↔ s.Clear) := by
  obtain ⟨s, hs, h0, h2, hh⟩ : ∃ s, genuineMachine.run (start 8080 5)
      [.connect 7, .send 1, .accept 0 1, .fork 0, .recv 2 1, .count 2, .writeShadow 2, .writeCom 2, .read 1, .read 1,
        .hangUp 1, .inherit 1, .monitor 1] = some s ∧ s.Superseded 0 ∧ s.Superseded 2 ∧ s.Holds 2 1 :=
    ⟨_, rfl, ⟨_, rfl, by decide⟩, ⟨_, rfl, by decide⟩, _, rfl, by decide⟩
  have hr : genuineMachine.Reachable s := .of_run _ (.init ⟨8080, 5, by decide, rfl⟩) hs
  exact ⟨s, hr, h0, h2, hh, update_completes_iff hr⟩

end OpenDSU.RequestState
