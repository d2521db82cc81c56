import OpenDSU.Theorems.Entering

/-! Which processes of a superseded version can still terminate: those that hold no stranded connection. The others can
wait until every hand-over they take part in has ended, and only then stop to monitor the port. As in `enters_iff`, nothing
is handed over that has only got the number of a closed `comfd`. -/

namespace OpenDSU.RequestState
open Function

variable {s t : RequestState} {p c d : Nat} {o : Host} {x : Conn}

/-! ### Completing hand-overs strands none -/

theorem answerSection_version (st : Status) (sock : DsuSocket) :
    (answerSection st sock).1.version = st.version ∧ (answerSection st sock).2.version = sock.version := by
  unfold answerSection
  split <;> exact ⟨rfl, rfl⟩

theorem Completes.not_strands {a : RequestAct} (h : s.Completes a) (hx : s.conns c = some x) : ¬s.Strands c x a := by
  rintro ⟨p, o, ho, ⟨rfl, -⟩ | ⟨rfl, hr, hcom⟩⟩
  · exact h
  · rcases h with ⟨o', ho', hcom'⟩ | ⟨y, hy, hr'⟩
    · obtain rfl : o = o' := Option.some.inj (ho.symm.trans ho')
      exact hcom hcom'
    · obtain rfl : x = y := Option.some.inj (hx.symm.trans hy)
      rw [hr] at hr'
      cases hr'

/-- What a step does to the processes when none exits or forks: it changes no version, adds no connection to one, and a new
    one is not superseded. -/
inductive HostsMove (s t : RequestState) : Prop
  | same (ht : t.hosts = s.hosts)
  | stored {q : Nat} {o o' : Host} (ho : s.hosts q = some o) (ht : t.hosts = update s.hosts q (some o'))
      (hv : o'.sock.version = o.sock.version) (hsub : o'.comfds.Sublist o.comfds)
  | entered {q : Nat} {o' : Host} (ho : s.hosts q = none) (ht : t.hosts = update s.hosts q (some o'))
      (hv : t.status.version ≤ o'.sock.version)

theorem HostsMove.host (h : HostsMove s t) (ho : s.hosts p = some o) :
    ∃ o', t.hosts p = some o' ∧ o'.sock.version = o.sock.version ∧ o'.comfds.Sublist o.comfds := by
  cases h with
  | same ht => exact ⟨o, by rw [ht, ho], rfl, List.Sublist.refl _⟩
  | @stored q o₁ o₂ hq ht hv hsub =>
    by_cases hpq : p = q
    · subst hpq
      obtain rfl : o = o₁ := Option.some.inj (ho.symm.trans hq)
      exact ⟨o₂, by rw [ht]; exact update_self .., hv, hsub⟩
    · exact ⟨o, by rw [ht]; exact (update_of_ne hpq ..).trans ho, rfl, List.Sublist.refl _⟩
  | @entered q o₂ hq ht hv =>
    have hpq : p ≠ q := by
      rintro rfl
      rw [hq] at ho
      cases ho
    exact ⟨o, by rw [ht]; exact (update_of_ne hpq ..).trans ho, rfl, List.Sublist.refl _⟩

/-- A process that is superseded after the step was there before it. -/
theorem HostsMove.back {o' : Host} (h : HostsMove s t) (ho' : t.hosts p = some o')
    (hv : o'.sock.version < t.status.version) :
    ∃ o, s.hosts p = some o ∧ o'.sock.version = o.sock.version ∧ o'.comfds.Sublist o.comfds := by
  cases h with
  | same ht => exact ⟨o', by rw [← ht, ho'], rfl, List.Sublist.refl _⟩
  | @stored q o₁ o₂ hq ht hv₂ hsub =>
    rw [ht] at ho'
    rcases update_eq_some.mp ho' with ⟨rfl, rfl⟩ | ⟨-, ho'⟩
    · exact ⟨o₁, hq, hv₂, hsub⟩
    · exact ⟨o', ho', rfl, List.Sublist.refl _⟩
  | @entered q o₂ hq ht hv₂ =>
    rw [ht] at ho'
    rcases update_eq_some.mp ho' with ⟨rfl, rfl⟩ | ⟨-, ho'⟩
    · omega
    · exact ⟨o', ho', rfl, List.Sublist.refl _⟩

theorem bindInheritSection_version (pgid : Int) (st : Status) (sock : DsuSocket) :
    st.version ≤ (bindInheritSection pgid st sock).version := by
  unfold bindInheritSection
  simp only
  split <;> omega

theorem Completes.moves {a : RequestAct} (h : s.Completes a) (hsound : s.Sound) (hs : s.step a = some t) :
    t.status.version = s.status.version ∧ HostsMove s t := by
  cases a with
  | connect | accept | fork | monitor | setLocked | reuse | exit => exact h.elim
  | send d =>
    obtain ⟨y, -, -, rfl⟩ := send_inv hs
    exact ⟨rfl, .same rfl⟩
  | recv q d =>
    obtain ⟨o, y, hq, -, -, -, ⟨-, rfl⟩ | ⟨-, -, rfl⟩⟩ := recv_inv hs
    · exact ⟨rfl, .stored hq rfl rfl (List.Sublist.refl _)⟩
    · exact ⟨rfl, .stored hq rfl rfl List.erase_sublist⟩
  | count q =>
    obtain ⟨o, d, hq, -, rfl⟩ := count_inv hs
    obtain ⟨hst, hv⟩ := answerSection_version s.status o.sock
    exact ⟨hst, .stored hq rfl hv (List.Sublist.refl _)⟩
  | writeShadow q =>
    obtain ⟨o, d, y, hq, -, -, rfl⟩ := writeShadow_inv hs
    exact ⟨rfl, .stored hq rfl rfl (List.Sublist.refl _)⟩
  | writeCom q =>
    obtain ⟨o, d, y, hq, -, -, ⟨com, -, rfl⟩ | ⟨-, rfl⟩⟩ := writeCom_inv hs
    · exact ⟨rfl, .stored hq rfl rfl (List.Sublist.refl _)⟩
    · exact ⟨rfl, .stored hq rfl rfl (List.Sublist.refl _)⟩
  | read d =>
    obtain ⟨y, m, -, -, -, -, rfl⟩ := read_inv hs
    exact ⟨rfl, .same rfl⟩
  | hangUp d =>
    obtain ⟨y, -, -, -, rfl⟩ := hangUp_inv hs
    exact ⟨rfl, .same rfl⟩
  | inherit d =>
    obtain ⟨y, shadow, com, hy, hst, -, rfl⟩ := inherit_inv hs
    exact ⟨rfl, .entered ((hsound.conns d y hy).alone (by simp [hst])) rfl (bindInheritSection_version ..)⟩

/-! ### A superseded process -/

/-- Process `p` is superseded, and of the connections of `l` it holds some that can end. -/
structure Retiring (p : Nat) (l : List Nat) (s : RequestState) (o : Host) : Prop where
  host : s.hosts p = some o
  superseded : o.sock.version < s.status.version
  holds : o.comfds.Sublist l
  ends : ∀ c ∈ o.comfds, ¬s.Stranded c

theorem Retiring.step {l : List Nat} {a : RequestAct} (h : Retiring p l s o) (hr : genuineMachine.Reachable s)
    (ha : s.Completes a) (hs : s.step a = some t) : ∃ o', Retiring p l t o' := by
  obtain ⟨hsound, hk⟩ := sound_of_reachable hr.of_guard
  obtain ⟨hst, hmove⟩ := ha.moves hsound hs
  obtain ⟨o', ho', hv, hsub⟩ := hmove.host h.host
  refine ⟨o', ho', by rw [hv, hst]; exact h.superseded, hsub.trans h.holds, fun c hc hstranded => ?_⟩
  obtain ⟨x, hx, -⟩ := (hsound.hosts p o h.host).comfds c (hsub.subset hc)
  exact ha.not_strands hx (strands_of_stranded hr.of_guard hx (h.ends c (hsub.subset hc)) hs hstranded)

/-- One run after another of steps that complete hand-overs. -/
theorem Retiring.bind {l : List Nat} {P Q : RequestState → Prop} (h : Retiring p l s o)
    (hr : genuineMachine.Reachable s) (hcan : genuineMachine.Can Completes P s)
    (next : ∀ t o', genuineMachine.Reachable t → Retiring p l t o' → P t → genuineMachine.Can Completes Q t) :
    genuineMachine.Can Completes Q s :=
  hcan.bind (R := fun t => genuineMachine.Reachable t ∧ ∃ o', Retiring p l t o')
    (fun _ _ _ ⟨hu, _, hret⟩ ha hs => ⟨reachable_step hu hs, hret.step hu ha (Machine.guard_step_iff.mp hs).2⟩) ⟨hr, o, h⟩
    fun t ⟨ht, o', hret⟩ hP => next t o' ht hret hP

theorem step_recv_closed (ho : s.hosts p = some o) (hx : s.conns c = some x) (hi : o.task = .idle) (hin : c ∈ o.comfds)
    (hr : x.request = false) (hst : x.stage = .entered) :
    s.step (.recv p c) = some (s.setHost p { o with comfds := o.comfds.erase c }) := by
  simp [step, ho, hx, hi, hin, hr, hst]

/-- What it answers can end, so its `comfd` is closed or that of the abstract name. -/
theorem Retiring.com_ne {l : List Nat} {n : Nat} (h : Retiring p l s o) (hsound : s.Sound)
    (hs : o.task.serves = some (d, n)) : o.com ≠ some .other := by
  intro hother
  obtain ⟨hin, x, hx, htk, -⟩ := (hsound.hosts p o h.host).task d n hs
  refine h.ends d hin ⟨x, hx, ((hsound.conns d x hx).taken p htk).1, hsound.not_whole_of_serves h.host hx hs, ?_⟩
  rintro q o' hq ⟨-, hcom, htk' | ⟨m, hserves⟩⟩
  · rw [htk] at htk'
    cases htk'
  · obtain rfl := hsound.task_unique h.host hq hs hserves
    obtain rfl : o = o' := Option.some.inj (h.host.symm.trans hq)
    rw [hother] at hcom
    cases hcom

/-- It is through with a connection whose process has entered, and closes it. -/
theorem Retiring.closes {l : List Nat} (h : Retiring p l s o) (hr : genuineMachine.Reachable s) (he : Entered c s)
    (hl : c ∈ l) : genuineMachine.Can Completes (fun t => ∃ l' o', Retiring p l' t o' ∧ l'.length < l.length) s := by
  -- A state in which the process is at no request.
  have close : ∀ t o', genuineMachine.Reachable t → Retiring p l t o' → o'.task = .idle → Entered c t →
      genuineMachine.Can Completes (fun t => ∃ l' o', Retiring p l' t o' ∧ l'.length < l.length) t := by
    intro t o' ht hret hi ⟨x, hx, hst⟩
    by_cases hin : c ∈ o'.comfds
    · have hreq := ((sound_of_reachable ht.of_guard).1.conns c x hx).done (by simp [Conn.IsOpen, hst])
      have hs := genuine_step rfl (step_recv_closed hret.host hx hi hin hreq.2 hst)
      have hcompletes : t.Completes (.recv p c) := Or.inr ⟨x, hx, hreq.2⟩
      obtain ⟨o'', hret'⟩ := hret.step ht hcompletes (Machine.guard_step_iff.mp hs).2
      refine .step (.recv p c) hs hcompletes
        (.here ⟨o''.comfds, o'', ⟨hret'.host, hret'.superseded, .refl _, hret'.ends⟩, ?_⟩)
      have ho'' : o''.comfds = o'.comfds.erase c := by
        have hhost := hret'.host
        rw [setHost_hosts, update_self] at hhost
        cases hhost
        rfl
      have := hret.holds.length_le
      have := List.length_pos_of_mem hin
      rw [ho'', List.length_erase_of_mem hin]
      omega
    · refine .here ⟨o'.comfds, o', ⟨hret.host, hret.superseded, .refl _, hret.ends⟩, ?_⟩
      refine Nat.lt_of_le_of_ne hret.holds.length_le fun hlen => hin ?_
      rw [hret.holds.eq_of_length hlen]
      exact hl
  cases hs : o.task.serves with
  | none => exact close s o hr h (idle_of_serves hs) he
  | some dn =>
    obtain ⟨d, n⟩ := dn
    obtain ⟨hsound, -⟩ := sound_of_reachable hr.of_guard
    obtain ⟨x, hx, hst⟩ := he
    have hcd : c ≠ d := by
      rintro rfl
      have hc := hsound.conns c x hx
      obtain ⟨com, -, -, q, -, hsent⟩ := hc.delivered (hc.done (by simp [Conn.IsOpen, hst])).1
      obtain ⟨-, -, hsent'⟩ := hsound.taker_of_serves h.host hx hs
      have hlen := congrArg List.length (hsent.symm.trans hsent')
      simp only [answerOf, shadowOf, List.length_take, List.length_append, List.length_cons, List.length_nil] at hlen
      omega
    refine h.bind hr (can_finish hr h.host (h.com_ne hsound hs) hs) fun t o' ht hret hf => ?_
    obtain ⟨o'', hi, hw, -⟩ := hf
    obtain rfl : o' = o'' := Option.some.inj (hret.host.symm.trans hw.host)
    exact close t o' ht hret hi ⟨x, (hw.conns c hcd).trans hx, hst⟩

/-- It can go on until it holds no connection and is at no request. -/
theorem Retiring.drains {l : List Nat} (h : Retiring p l s o) (hr : genuineMachine.Reachable s) :
    genuineMachine.Can Completes (fun t => ∃ o', Retiring p [] t o' ∧ o'.task = .idle) s := by
  induction hl : l.length using Nat.strongRecOn generalizing s o l with
  | ind k ih =>
    cases hin : o.comfds with
    | nil =>
      -- What a process serves, it holds.
      refine .here ⟨o, ⟨h.host, h.superseded, by simp [hin], h.ends⟩, idle_of_serves ?_⟩
      cases hs : o.task.serves with
      | none => rfl
      | some dn =>
        obtain ⟨hd, -⟩ := ((sound_of_reachable hr.of_guard).1.hosts p o h.host).task dn.1 dn.2 hs
        rw [hin] at hd
        cases hd
    | cons c rest =>
      have hc : c ∈ o.comfds := by simp [hin]
      obtain ⟨x, hx, hacc⟩ := ((sound_of_reachable hr.of_guard).1.hosts p o h.host).comfds c hc
      refine h.bind hr (canEnter_of_accepted hr hx hacc (h.ends c hc)) fun t o' ht hret he => ?_
      refine hret.bind ht (hret.closes ht he (h.holds.subset hc)) fun u o'' hu _ hless => ?_
      obtain ⟨l', o₃, hret', hlt⟩ := hless
      exact ih l'.length (hl ▸ hlt) hret' hu rfl

/-! ### Its last event call -/

theorem step_setLocked {locked : Bool} (ho : s.hosts p = some o) (hi : o.task = .idle) :
    s.step (.setLocked p locked) = some (s.setHost p { o with sock := { o.sock with locked := locked } }) := by
  simp [step, ho, hi]

theorem step_monitor (ho : s.hosts p = some o) (hi : o.task = .idle) : s.step (.monitor p) =
    some { s.setHost p { o with
        sock := (monitorSection o.pgid s.status o.sock).2
        com := if o.sock.quits s.status then none else o.com } with
      status := (monitorSection o.pgid s.status o.sock).1 } := by
  simp [step, ho, hi]

theorem step_exit (ho : s.hosts p = some o) (hi : o.task = .idle) (hv : o.sock.version < s.status.version)
    (hm : o.sock.monitoring = false) (hc : o.comfds = []) :
    s.step (.exit p) = some { s with hosts := update s.hosts p none } := by
  simp [step, ho, hi, hv, hm, hc]

/-- `dsu_monitor_fd` of a superseded record changes no version, and lets it monitor on only while it is locked. -/
theorem monitorSection_superseded (pgid : Int) {st : Status} {sock : DsuSocket} (hv : sock.version < st.version) :
    (monitorSection pgid st sock).1.version = st.version ∧ (monitorSection pgid st sock).2.version = sock.version ∧
    (sock.locked = false → (monitorSection pgid st sock).2.monitoring = false) := by
  rcases monitorSection_cases pgid st sock with ⟨-, he⟩ | ⟨-, hr, -⟩ | ⟨hq, -, he⟩
  · rw [he]
    exact ⟨rfl, rfl, fun _ => rfl⟩
  · have := (raises_iff.mp hr).1
    omega
  · rw [he]
    refine ⟨rfl, rfl, fun hl => ?_⟩
    cases hm : sock.monitoring with
    | false => rfl
    | true =>
      rw [quits_iff.mpr ⟨hv, hm, hl⟩] at hq
      cases hq

/-- The process is superseded and holds no connection. -/
def Drained (s : RequestState) (p : Nat) : Prop :=
  ∃ o, s.hosts p = some o ∧ o.sock.version < s.status.version ∧ o.comfds = []

/-- A step towards the end of the superseded processes: hand-overs complete, and who is drained gives the descriptor lock
    back, stops monitoring and terminates. -/
inductive Concludes (s : RequestState) : RequestAct → Prop
  | completes {a : RequestAct} (h : s.Completes a) : Concludes s a
  | setLocked {p : Nat} (locked : Bool) (h : s.Drained p) : Concludes s (.setLocked p locked)
  | monitor {p : Nat} (h : s.Drained p) : Concludes s (.monitor p)
  | exit {p : Nat} (h : s.Drained p) : Concludes s (.exit p)

/-- With no connection and at no request, it stops monitoring and terminates. -/
theorem Retiring.exits (h : Retiring p [] s o) (hi : o.task = .idle) :
    genuineMachine.Can Concludes (fun t => t.hosts p = none) s := by
  have hnil : o.comfds = [] := List.sublist_nil.mp h.holds
  have hv : { o.sock with locked := false }.version < s.status.version := h.superseded
  obtain ⟨hst, hsock, hm⟩ := monitorSection_superseded o.pgid hv
  have hv' : (monitorSection o.pgid s.status { o.sock with locked := false }).2.version <
      (monitorSection o.pgid s.status { o.sock with locked := false }).1.version := by
    rw [hst, hsock]
    exact hv
  refine .step (.setLocked p false) (genuine_step rfl (step_setLocked h.host hi))
    (.setLocked false ⟨o, h.host, h.superseded, hnil⟩) ?_
  refine .step (.monitor p) (genuine_step rfl (step_monitor (update_self ..) hi))
    (.monitor ⟨_, update_self .., hv, hnil⟩) ?_
  exact .step (.exit p) (genuine_step rfl (step_exit (update_self ..) hi hv' (hm rfl) hnil))
    (.exit ⟨_, update_self .., hv', hnil⟩) (.here (update_self ..))

/-- A superseded process can still terminate if and only if none of the connections it holds is stranded. -/
theorem retires_iff (hr : genuineMachine.Reachable s) (ho : s.hosts p = some o)
    (hv : o.sock.version < s.status.version) :
    (∃ as t, genuineMachine.run s as = some t ∧ t.hosts p = none) ↔ ∀ c ∈ o.comfds, ¬s.Stranded c := by
  constructor
  · rintro ⟨as, t, hrun, hnone⟩ c hc hstranded
    have hno := (unstrayed_of_reachable (hr.of_run as hrun)).sent c
    obtain ⟨-, -, hholds⟩ := run_stranded hr.of_guard hstranded (Machine.run_guard_iff.mp hrun).1
    obtain ⟨o', ho', -⟩ := hholds.resolve_left hno p ⟨o, ho, hc⟩
    rw [hnone] at ho'
    cases ho'
  · intro hends
    have hret : Retiring p o.comfds s o := ⟨ho, hv, .refl _, hends⟩
    have hcan : genuineMachine.Can (fun _ _ => True) (fun t => ∃ o', Retiring p [] t o' ∧ o'.task = .idle) s :=
      (hret.drains hr).weaken fun _ _ _ => trivial
    obtain ⟨as, t, hrun, -, hnone⟩ := hcan.bind (R := fun _ => True) (fun _ _ _ _ _ _ => trivial) trivial
      fun t _ ⟨o', hret', hi⟩ => (hret'.exits hi).weaken fun _ _ _ => trivial
    exact ⟨as, t, hrun, hnone⟩

/-- The second version has taken over from the first, which has not closed their connection yet. -/
theorem retires_iff_entered : ∃ s o, genuineMachine.Reachable s ∧ s.hosts 0 = some o ∧
    o.sock.version < s.status.version ∧ o.sock.monitoring = true ∧ o.comfds = [1] ∧
    ((∃ as t, genuineMachine.run s as = some t ∧ t.hosts 0 = none) ↔ ∀ c ∈ o.comfds, ¬s.Stranded c) := by
  obtain ⟨s, hs, o, ho, hv, hm, hc⟩ : ∃ s, genuineMachine.run (start 8080 5)
      [.connect 7, .send 1, .accept 0 1, .recv 0 1, .count 0, .writeShadow 0, .writeCom 0, .read 1, .read 1, .hangUp 1,
        .inherit 1, .monitor 1] = some s ∧
      ∃ o, s.hosts 0 = some o ∧ o.sock.version < s.status.version ∧ o.sock.monitoring = true ∧ o.comfds = [1] :=
    ⟨_, rfl, _, rfl, by decide, rfl, rfl⟩
  have hr : genuineMachine.Reachable s := .of_run _ (.init ⟨8080, 5, by decide, rfl⟩) hs
  exact ⟨s, o, hr, ho, hv, hm, hc, retires_iff hr ho hv⟩

end OpenDSU.RequestState
