import OpenDSU.Theorems.Listener
import Mathlib.Order.Bounds.Basic

/-! An update settles. From the moment no further version enters, two rounds of event calls are enough, in any
order and with whatever else the processes do meanwhile: in the first round the newest version that monitors becomes
the version of the port, in the second every older record stops monitoring. -/

namespace OpenDSU.PortState

/-- The steps of processes that serve the port and may fork, while no `bind` ends. -/
def Settling : PortAct → Bool
  | .bindFirst _ | .bindAnswered _ => false
  | a => Ordinary a

/-- Record `i` is monitored. -/
def Monitors (i : Nat) (_ : PortState) (a : PortAct) : Prop := a = .monitor i

/-- Record `i` is monitored while its process does not hold the descriptor lock. -/
def MonitorsUnlocked (i : Nat) (s : PortState) (a : PortAct) : Prop :=
  a = .monitor i ∧ ∀ r ∈ s.recs[i]?, r.sock.locked = false

instance (i : Nat) (s : PortState) (a : PortAct) : Decidable (Monitors i s a) :=
  inferInstanceAs (Decidable (a = _))

instance (i : Nat) (s : PortState) (a : PortAct) : Decidable (MonitorsUnlocked i s a) :=
  inferInstanceAs (Decidable (_ ∧ _))

/-- The versions that some record monitors the port at. -/
def versions (s : PortState) : Set Int := {v | ∃ r ∈ s.recs, r.sock.monitoring = true ∧ r.sock.version = v}

variable {s t u : PortState} {v : Int} {i : Nat}

/-! ### One step -/

/-- What becomes of a record in a step: its version stays, and it monitors on unless it is superseded. -/
def Rests (s : PortState) (r r' : Rec) : Prop :=
  r'.sock.version = r.sock.version ∧
    (r'.sock.monitoring = r.sock.monitoring ∨ r.sock.version < s.status.version ∧ r'.sock.monitoring = false)

/-- What a step does while no further version enters. -/
structure Settles (s t : PortState) : Prop where
  rests : ∀ (i : Nat) (r : Rec), s.recs[i]? = some r → ∃ r', t.recs[i]? = some r' ∧ s.Rests r r'
  origin : ∀ r' ∈ t.recs, ∃ r ∈ s.recs, s.Rests r r'
  version : t.status.version = s.status.version ∨
    t.status.version = s.status.version + 1 ∧
      ∃ r ∈ s.recs, r.sock.monitoring = true ∧ s.status.version < r.sock.version

theorem Rests.refl (r : Rec) : s.Rests r r := ⟨rfl, Or.inl rfl⟩

theorem settles_same (hr : t.recs = s.recs) (hst : t.status.version = s.status.version) : s.Settles t where
  rests i r h := ⟨r, by rw [hr]; exact h, .refl r⟩
  origin r h := ⟨r, hr ▸ h, .refl r⟩
  version := Or.inl hst

/-- A step that stores one record. -/
theorem settles_set {r r' : Rec} (hr : s.recs[i]? = some r) (hrest : s.Rests r r') (ht : t.recs = s.recs.set i r')
    (hst : t.status.version = s.status.version ∨ t.status.version = s.status.version + 1 ∧
      r.sock.monitoring = true ∧ s.status.version < r.sock.version) : s.Settles t where
  rests j x hx := by
    rw [ht]
    by_cases hij : i = j
    · subst hij
      obtain rfl : r = x := Option.some.inj (hr.symm.trans hx)
      exact ⟨r', by simp [(List.getElem?_eq_some_iff.mp hr).1], hrest⟩
    · exact ⟨x, by rw [List.getElem?_set_ne hij]; exact hx, .refl x⟩
  origin x hx := by
    rw [ht] at hx
    rcases mem_set_cases hr hx with rfl | hx
    · exact ⟨r, List.mem_of_getElem? hr, hrest⟩
    · exact ⟨x, hx, .refl x⟩
  version := by
    rcases hst with hst | ⟨hst, hm, hlt⟩
    · exact Or.inl hst
    · exact Or.inr ⟨hst, r, List.mem_of_getElem? hr, hm, hlt⟩

theorem settles_monitor (hs : s.step (.monitor i) = some t) : s.Settles t := by
  obtain ⟨r, hr, rfl⟩ := monitor_inv hs
  rcases monitorSection_cases r.pgid s.status r.sock with ⟨hq, he⟩ | ⟨-, hraise, he⟩ | ⟨-, -, he⟩
  · refine settles_set hr ?_ rfl (Or.inl ?_) <;> rw [he]
    exact ⟨rfl, Or.inr ⟨(quits_iff.mp hq).1, rfl⟩⟩
  · obtain ⟨hlt, hm⟩ := raises_iff.mp hraise
    refine settles_set hr ?_ rfl (Or.inr ⟨?_, hm, hlt⟩) <;> rw [he]
    exact ⟨rfl, Or.inl rfl⟩
  · refine settles_set hr ?_ rfl (Or.inl ?_) <;> rw [he]
    exact ⟨rfl, Or.inl rfl⟩

theorem settles_serve {k : Nat} (hs : s.step (.serve i k) = some t) : s.Settles t := by
  obtain ⟨r, b, hr, -, -, rfl⟩ := serve_inv hs
  cases ht : r.sock.transfer
  · refine settles_set hr ?_ rfl (Or.inl ?_) <;> simp only [answerSection, ht, Bool.false_eq_true, ↓reduceIte]
    exact ⟨rfl, Or.inl rfl⟩
  · refine settles_set hr ?_ rfl (Or.inl ?_) <;> simp only [answerSection, ht, ↓reduceIte]
    exact ⟨rfl, Or.inl rfl⟩

theorem settles_fork {pid child : Nat} (hs : s.step (.fork pid child) = some t) : s.Settles t := by
  obtain rfl := fork_inv hs
  exact {
    rests := fun j r hr => ⟨r, (List.getElem?_append_left (List.getElem?_eq_some_iff.mp hr).1).trans hr, .refl r⟩
    origin := fun r' hr' => by
      rcases List.mem_append.mp hr' with hr' | hr'
      · exact ⟨r', hr', .refl r'⟩
      · obtain ⟨r, hr, -, rfl⟩ := mem_copies.mp hr'
        exact ⟨r, hr, rfl, Or.inl rfl⟩
    version := Or.inl rfl }

theorem step_settles {a : PortAct} (ha : Settling a = true) (hs : handOverMachine.step s a = some t) :
    s.Settles t := by
  obtain ⟨hord, hs⟩ := Machine.restrict_step_iff.mp hs
  cases a with
  | claimName =>
    obtain ⟨-, rfl⟩ := claimName_inv hs
    exact settles_same rfl rfl
  | request =>
    obtain ⟨-, rfl⟩ := request_inv hs
    exact settles_same rfl rfl
  | bindFirst => cases ha
  | serve => exact settles_serve hs
  | bindAnswered => cases ha
  | bindFallback => cases hord
  | fork => exact settles_fork hs
  | monitor => exact settles_monitor hs
  | setLocked =>
    obtain ⟨r, hr, rfl⟩ := setLocked_inv hs
    refine settles_set hr ?_ rfl (Or.inl rfl)
    exact ⟨rfl, Or.inl rfl⟩
  | close => cases hord
  | closeCom => cases hord

/-! ### Runs -/

/-- What every step keeps, where `v` is the newest version that monitors. -/
structure Heading (v : Int) (s : PortState) : Prop where
  listening : s.Listening
  newest : IsGreatest s.versions v
  reaches : s.status.version ≤ v

/-- The newest version that monitors: the one of the port, or the next. -/
theorem exists_heading (h : s.Listening) (hb : s.recs ≠ []) : ∃ v, s.Heading v := by
  obtain ⟨x, hx, hxm, hxv⟩ := h.served hb
  by_cases hnext : ∃ r ∈ s.recs, r.sock.monitoring = true ∧ r.sock.version = s.status.version + 1
  · refine ⟨s.status.version + 1, h, ⟨hnext, ?_⟩, by omega⟩
    rintro _ ⟨r, hr, -, rfl⟩
    exact h.ahead r hr
  · refine ⟨s.status.version, h, ⟨⟨x, hx, hxm, hxv⟩, ?_⟩, Int.le_refl _⟩
    rintro _ ⟨r, hr, hm, rfl⟩
    have hle := h.ahead r hr
    by_contra hlt
    exact hnext ⟨r, hr, hm, by omega⟩

theorem step_heading {a : PortAct} (h : s.Heading v) (ha : Settling a = true)
    (hs : handOverMachine.step s a = some t) : t.Heading v := by
  obtain ⟨hrests, horigin, hversion⟩ := step_settles ha hs
  obtain ⟨hord, hs⟩ := Machine.restrict_step_iff.mp hs
  obtain ⟨⟨x, hx, hxm, hxv⟩, hmax⟩ := h.newest
  refine ⟨step_listening h.listening hord hs, ⟨?_, ?_⟩, ?_⟩
  · -- A record of the newest version is not superseded.
    obtain ⟨j, hj⟩ := List.getElem?_of_mem hx
    obtain ⟨x', hx', hv, hm | ⟨hlt, -⟩⟩ := hrests j x hj
    · exact ⟨x', List.mem_of_getElem? hx', hm.trans hxm, hv.trans hxv⟩
    · have := h.reaches
      omega
  · rintro _ ⟨r', hr', hm', rfl⟩
    obtain ⟨r, hr, hv, hm | ⟨-, hm⟩⟩ := horigin r' hr'
    · exact hmax ⟨r, hr, hm ▸ hm', hv.symm⟩
    · rw [hm] at hm'
      cases hm'
  · rcases hversion with he | ⟨he, r, hr, hm, hlt⟩
    · rw [he]
      exact h.reaches
    · have : r.sock.version ≤ v := hmax ⟨r, hr, hm, rfl⟩
      omega

/-- What `dsu_monitor_fd` makes of its record. -/
theorem monitored (hs : s.step (.monitor i) = some t) : ∃ r r', s.recs[i]? = some r ∧ t.recs[i]? = some r' ∧
    (t.status, r'.sock) = monitorSection r.pgid s.status r.sock := by
  obtain ⟨r, hr, rfl⟩ := monitor_inv hs
  exact ⟨r, _, hr, List.getElem?_set_self (List.getElem?_eq_some_iff.mp hr).1, rfl⟩

/-- A record has been monitored: where it still monitors, its version does not exceed that of the port. -/
def Published (i : Nat) (s : PortState) : Prop :=
  ∃ r, s.recs[i]? = some r ∧ (r.sock.monitoring = true → r.sock.version ≤ s.status.version)

theorem published_monitor (h : s.Listening) (hs : s.step (.monitor i) = some t) : t.Published i := by
  obtain ⟨r, r', hr, hr', he⟩ := monitored hs
  refine ⟨r', hr', fun hm => ?_⟩
  have hle := h.ahead r (List.mem_of_getElem? hr)
  rcases monitorSection_cases r.pgid s.status r.sock with ⟨-, hc⟩ | ⟨-, -, hc⟩ | ⟨-, hraise, hc⟩
  all_goals
    rw [hc] at he
    obtain ⟨hst, hsock⟩ := Prod.mk.inj he
    rw [hsock] at hm ⊢
    rw [hst]
  · cases hm
  · exact hle
  · by_contra hlt
    rw [raises_iff.mpr ⟨by omega, hm⟩] at hraise
    cases hraise

theorem Published.step {a : PortAct} (h : s.Published i) (ha : Settling a = true)
    (hs : handOverMachine.step s a = some t) : t.Published i := by
  obtain ⟨r, hr, hle⟩ := h
  obtain ⟨hrests, -, hversion⟩ := step_settles ha hs
  obtain ⟨r', hr', hv, hm | ⟨-, hm⟩⟩ := hrests i r hr
  · refine ⟨r', hr', fun hm' => ?_⟩
    have := hle (hm ▸ hm')
    omega
  · refine ⟨r', hr', fun hm' => ?_⟩
    rw [hm] at hm'
    cases hm'

/-- A record has been monitored at the newest version `v`: where it still monitors, it is of that version. -/
def Sorted (v : Int) (i : Nat) (s : PortState) : Prop :=
  ∃ r, s.recs[i]? = some r ∧ (r.sock.monitoring = true → r.sock.version = v)

theorem sorted_monitor (h : s.Heading v) (hv : s.status.version = v) (hl : ∀ r ∈ s.recs[i]?, r.sock.locked = false)
    (hs : s.step (.monitor i) = some t) : t.Sorted v i := by
  obtain ⟨r, r', hr, hr', he⟩ := monitored hs
  refine ⟨r', hr', fun hm => ?_⟩
  rcases monitorSection_cases r.pgid s.status r.sock with ⟨-, hc⟩ | ⟨hq, -, hc⟩ | ⟨hq, -, hc⟩
  all_goals
    rw [hc] at he
    obtain ⟨-, hsock⟩ := Prod.mk.inj he
    rw [hsock] at hm ⊢
  · cases hm
  all_goals
    have hle : r.sock.version ≤ v := h.newest.2 ⟨r, List.mem_of_getElem? hr, hm, rfl⟩
    by_contra hne
    rw [quits_iff.mpr ⟨by omega, hm, hl r hr⟩] at hq
    cases hq

theorem Sorted.step {a : PortAct} (h : s.Sorted v i) (ha : Settling a = true)
    (hs : handOverMachine.step s a = some t) : t.Sorted v i := by
  obtain ⟨r, hr, himp⟩ := h
  obtain ⟨r', hr', hv, hm | ⟨-, hm⟩⟩ := (step_settles ha hs).rests i r hr
  · exact ⟨r', hr', fun hm' => hv.trans (himp (hm ▸ hm'))⟩
  · refine ⟨r', hr', fun hm' => ?_⟩
    rw [hm] at hm'
    cases hm'

/-- The first round: the version of the port becomes the newest that monitors. -/
theorem first_round {as : List PortAct} (h : s.Heading v)
    (has : handOverMachine.Steps (fun _ a => Settling a = true) s as) (hrun : handOverMachine.run s as = some t)
    (hround : ∀ i < t.recs.length, handOverMachine.Happens (Monitors i) s as) : t.Heading v ∧ t.status.version = v := by
  have ht : t.Heading v := has.invariant (fun _ _ _ hi ha hs => step_heading hi ha hs) h hrun
  refine ⟨ht, Int.le_antisymm ht.reaches ?_⟩
  obtain ⟨x, hx, hxm, rfl⟩ := ht.newest.1
  obtain ⟨i, hi⟩ := List.getElem?_of_mem hx
  have hpub : t.Published i := by
    refine (hround i (List.getElem?_eq_some_iff.mp hi).1).lasts (I := Heading x.sock.version)
      (fun _ _ _ hi ha hs => step_heading hi ha hs) ?_ (fun _ _ _ _ ha hp hs => hp.step ha hs) h has hrun
    rintro s _ t hs rfl hstep
    exact published_monitor hs.listening (Machine.restrict_step_iff.mp hstep).2
  obtain ⟨r, hr, hle⟩ := hpub
  obtain rfl : x = r := Option.some.inj (hi.symm.trans hr)
  exact hle hxm

/-- The second round: every older record stops monitoring. -/
theorem second_round {as : List PortAct} (h : s.Heading v) (hv : s.status.version = v)
    (has : handOverMachine.Steps (fun _ a => Settling a = true) s as) (hrun : handOverMachine.run s as = some t)
    (hround : ∀ i < t.recs.length, handOverMachine.Happens (MonitorsUnlocked i) s as) :
    t.status.version = v ∧ ∀ r ∈ t.recs, r.sock.monitoring = true → r.sock.version = v := by
  have keep : ∀ s a t, Heading v s ∧ s.status.version = v → Settling a = true →
      handOverMachine.step s a = some t → Heading v t ∧ t.status.version = v := by
    rintro s a t ⟨hi, hv⟩ ha hs
    have ht := step_heading hi ha hs
    refine ⟨ht, ?_⟩
    have := ht.reaches
    rcases (step_settles ha hs).version with he | ⟨he, -⟩ <;> omega
  refine ⟨(has.invariant (I := fun s => Heading v s ∧ s.status.version = v) keep ⟨h, hv⟩ hrun).2, ?_⟩
  intro r hr hm
  obtain ⟨i, hi⟩ := List.getElem?_of_mem hr
  have hsorted : t.Sorted v i := by
    refine (hround i (List.getElem?_eq_some_iff.mp hi).1).lasts (I := fun s => Heading v s ∧ s.status.version = v)
      keep ?_ (fun _ _ _ _ ha hp hs => hp.step ha hs) ⟨h, hv⟩ has hrun
    rintro s _ t ⟨hs, hv⟩ ⟨rfl, hl⟩ hstep
    exact sorted_monitor hs hv hl (Machine.restrict_step_iff.mp hstep).2
  obtain ⟨r', hr', himp⟩ := hsorted
  obtain rfl : r = r' := Option.some.inj (hi.symm.trans hr')
  exact himp hm

/-- What becomes of the record `r` on the way to the newest version `v`. -/
def Becomes (v : Int) (r : Rec) (i : Nat) (s : PortState) : Prop :=
  ∃ r', s.recs[i]? = some r' ∧ r'.sock.version = r.sock.version ∧
    (r'.sock.monitoring = true → r.sock.monitoring = true) ∧
    (r.sock.monitoring = true → r.sock.version = v → r'.sock.monitoring = true)

theorem Becomes.step {a : PortAct} {r : Rec} (h : s.Becomes v r i) (hle : s.status.version ≤ v)
    (ha : Settling a = true) (hs : handOverMachine.step s a = some t) : t.Becomes v r i := by
  obtain ⟨x, hx, hv, himp, hnewest⟩ := h
  obtain ⟨x', hx', hv', hm | ⟨hlt, hm⟩⟩ := (step_settles ha hs).rests i x hx
  · exact ⟨x', hx', hv'.trans hv, fun h => himp (hm ▸ h), fun h he => hm.trans (hnewest h he)⟩
  · refine ⟨x', hx', hv'.trans hv, fun h => ?_, fun _ he => ?_⟩
    · rw [hm] at h
      cases h
    · omega

/-- From any state in which the port is bound, and while no further `bind` ends: once every record has been monitored,
    and after that every record once more while its process does not hold the descriptor lock, in any order and with
    requests, answers and forks in between, the version of the port is the newest that monitored it, and the records that
    monitor are those of this version that did. -/
theorem update_settles (as bs : List PortAct) (hr : handOverMachine.Reachable s) (hb : s.recs ≠ [])
    (hact : ∀ a ∈ as ++ bs, Settling a = true) (has : handOverMachine.run s as = some t)
    (hbs : handOverMachine.run t bs = some u)
    (hfirst : ∀ i < t.recs.length, handOverMachine.Happens (Monitors i) s as)
    (hsecond : ∀ i < u.recs.length, handOverMachine.Happens (MonitorsUnlocked i) t bs) :
    IsGreatest s.versions u.status.version ∧
    (∀ r ∈ u.recs, r.sock.monitoring = true → r.sock.version = u.status.version) ∧
    ∀ (i : Nat) (r : Rec), s.recs[i]? = some r → ∃ r', u.recs[i]? = some r' ∧
      r'.sock.version = r.sock.version ∧
      (r'.sock.monitoring = true ↔ r.sock.monitoring = true ∧ r.sock.version = u.status.version) := by
  obtain ⟨v, hv⟩ := exists_heading (listening_of_reachable hr) hb
  have hsas := Machine.Steps.of_forall (M := handOverMachine) (s := s) fun a ha => hact a (List.mem_append_left _ ha)
  have hsbs := Machine.Steps.of_forall (M := handOverMachine) (s := t) fun a ha => hact a (List.mem_append_right _ ha)
  obtain ⟨ht, htv⟩ := first_round hv hsas has hfirst
  obtain ⟨huv, hall⟩ := second_round ht htv hsbs hbs hsecond
  rw [huv]
  refine ⟨hv.newest, hall, fun i r hi => ?_⟩
  have keep : ∀ s a t, Heading v s ∧ s.Becomes v r i → Settling a = true → handOverMachine.step s a = some t →
      Heading v t ∧ t.Becomes v r i :=
    fun s a t h ha hs => ⟨step_heading h.1 ha hs, h.2.step h.1.reaches ha hs⟩
  have hti := hsas.invariant (I := fun s => Heading v s ∧ s.Becomes v r i) keep ⟨hv, r, hi, rfl, id, fun h _ => h⟩ has
  have hui := hsbs.invariant (I := fun s => Heading v s ∧ s.Becomes v r i) keep hti hbs
  obtain ⟨-, r', hr', hver, himp, hnewest⟩ := hui
  exact ⟨r', hr', hver, fun hm => ⟨himp hm, hver ▸ hall r' (List.mem_of_getElem? hr') hm⟩, fun h => hnewest h.1 h.2⟩

/-- The processes 1 and 2 of the old version and 3 and 4 of the new one; 4 is forked after the first event call of 3. -/
theorem update_settles_two_workers : ∃ s t u,
    handOverMachine.run (unused 8080)
      [.claimName 1 10, .bindFirst 0, .fork 1 2, .request 3 20, .serve 1 0, .bindAnswered 0] = some s ∧
    handOverMachine.run s [.monitor 0, .monitor 2, .fork 3 4, .monitor 3, .monitor 1] = some t ∧
    handOverMachine.run t [.monitor 3, .monitor 2, .monitor 1, .monitor 0] = some u ∧
    IsGreatest s.versions u.status.version := by
  refine ⟨_, _, _, rfl, rfl, rfl, ?_⟩
  exact (update_settles [.monitor 0, .monitor 2, .fork 3 4, .monitor 3, .monitor 1]
    [.monitor 3, .monitor 2, .monitor 1, .monitor 0]
    (.of_run [.claimName 1 10, .bindFirst 0, .fork 1 2, .request 3 20, .serve 1 0, .bindAnswered 0]
      (.init (s := unused 8080) ⟨rfl, rfl, rfl⟩) rfl)
    (by decide) (by decide) rfl rfl (by decide) (by decide)).1

end OpenDSU.PortState
