import OpenDSU.Theorems.Listener

/-! One process group at a time holds the current version of a port.

`bind` reads the version and the group of the port, `dsu_monitor_fd` publishes them in a later event call.
Two groups that inherit within that window get the same number, and a process of a group that has been
superseded counts as a newer version. Runs without such a bind, and only they, keep the groups apart. -/

namespace OpenDSU.PortState

/-- A process of the group holds an older version than the port. -/
def SupersededGroup (s : PortState) (g : Int) : Prop :=
  ∃ r ∈ s.recs, r.pgid = g ∧ r.sock.version < s.status.version

/-- The records that monitor the port at its version belong to `status[DSU_PGID]`, no two groups hold the
    same version, and no process of a superseded group holds a version above that of the port. -/
structure OneGeneration (s : PortState) : Prop where
  current : ∀ r ∈ s.recs, r.sock.monitoring = true → r.sock.version = s.status.version → r.pgid = s.status.pgid
  apart : ∀ r ∈ s.recs, ∀ r' ∈ s.recs, r.pgid ≠ r'.pgid → r.sock.version ≠ r'.sock.version
  older : ∀ r ∈ s.recs, s.SupersededGroup r.pgid → r.sock.version ≤ s.status.version

/-- An inheriting bind is timely when its group holds the port, or when the port is not 0 and the group neither superseded
    nor second to another group whose update is not published yet. On port 0 `bind` takes the branch of the first version. -/
def Timely (s : PortState) : PortAct → Prop
  | .bindAnswered k => ∀ b, s.binders[k]? = some b → b.pgid = s.status.pgid ∨ 0 < s.port ∧
      ¬s.SupersededGroup b.pgid ∧ ∀ r ∈ s.recs, r.sock.version = s.status.version + 1 → r.pgid = b.pgid
  | _ => True

/-- What timely steps keep: groups and versions match one to one. -/
structure Ordered (s : PortState) : Prop where
  listening : s.Listening
  group : ∀ r ∈ s.recs, ∀ r' ∈ s.recs, r.pgid = r'.pgid ↔ r.sock.version = r'.sock.version
  current : ∀ r ∈ s.recs, r.sock.version = s.status.version → r.pgid = s.status.pgid

variable {s t : PortState}

theorem Ordered.version (h : s.Ordered) {r : Rec} (hr : r ∈ s.recs) (hg : r.pgid = s.status.pgid) :
    r.sock.version = s.status.version := by
  obtain ⟨x, hx, -, hxv⟩ := h.listening.served (List.ne_nil_of_mem hr)
  rw [← hxv]
  exact (h.group r hr x hx).mp (hg.trans (h.current x hx hxv).symm)

theorem Ordered.oneGeneration (h : s.Ordered) : s.OneGeneration where
  current r hr _ hv := h.current r hr hv
  apart r hr r' hr' hne hv := hne ((h.group r hr r' hr').mpr hv)
  older r hr hs := by
    obtain ⟨x, hx, hg, hlt⟩ := hs
    have := (h.group x hx r hr).mp hg
    omega

/-- Records with the groups and versions of old ones stay ordered under the same version and group. -/
theorem Ordered.of_same (h : s.Ordered) (hl : t.Listening)
    (hv : t.status.version = s.status.version) (hg : t.status.pgid = s.status.pgid)
    (same : ∀ x ∈ t.recs, ∃ r ∈ s.recs, x.pgid = r.pgid ∧ x.sock.version = r.sock.version) : t.Ordered where
  listening := hl
  group x hx x' hx' := by
    obtain ⟨r, hr, hp, he⟩ := same x hx
    obtain ⟨r', hr', hp', he'⟩ := same x' hx'
    rw [hp, he, hp', he']
    exact h.group r hr r' hr'
  current x hx hxv := by
    obtain ⟨r, hr, hp, he⟩ := same x hx
    rw [hp, hg]
    exact h.current r hr (by rw [← he, hxv, hv])

/-- The records after one is stored are old ones, up to what is not compared. -/
theorem same_of_set {i : Nat} {r : Rec} (hr : s.recs[i]? = some r) (r' : Rec) (hp : r'.pgid = r.pgid)
    (hv : r'.sock.version = r.sock.version) :
    ∀ x ∈ s.recs.set i r', ∃ y ∈ s.recs, x.pgid = y.pgid ∧ x.sock.version = y.sock.version := by
  intro x hx
  rcases mem_set_cases hr hx with rfl | hx
  · exact ⟨r, List.mem_of_getElem? hr, hp, hv⟩
  · exact ⟨x, hx, rfl, rfl⟩

/-! ### One step -/

theorem ordered_bindFirst {k : Nat} (h : s.Ordered) (hl : t.Listening) (hs : s.step (.bindFirst k) = some t) :
    t.Ordered := by
  obtain ⟨b, hb, hp, rfl⟩ := bindFirst_inv hs
  have hempty : s.recs = [] := by
    by_contra hne
    exact h.listening.named hne b (List.mem_of_getElem? hb) hp
  have hrecs : ∀ r ∈ (s.enterFirst k b true).recs, r.pgid = b.pgid ∧ r.sock.version = 0 := by
    intro r hr
    simp only [enterFirst, hempty, List.nil_append, List.mem_singleton] at hr
    subst hr
    exact ⟨rfl, rfl⟩
  exact {
    listening := hl
    group := fun r hr r' hr' => by simp [hrecs r hr, hrecs r' hr']
    current := fun r hr _ => (hrecs r hr).1 }

theorem ordered_bindAnswered {k : Nat} (h : s.Ordered) (hl : t.Listening) (ha : s.Timely (.bindAnswered k))
    (hs : s.step (.bindAnswered k) = some t) : t.Ordered := by
  obtain ⟨b, hb, -, ⟨-, rfl⟩ | ⟨h0, rfl⟩⟩ := bindAnswered_inv hs
  · -- The new record matches an old one by group exactly when it does by version.
    have match_new : ∀ r ∈ s.recs,
        r.pgid = b.pgid ↔ r.sock.version = (bindInheritSection b.pgid s.status s.fresh).version := by
      intro r hr
      by_cases hg : s.status.pgid = b.pgid
      · simp only [bindInheritSection, hg, ne_eq, not_true_eq_false, ↓reduceIte]
        exact ⟨fun hp => h.version hr (hp.trans hg.symm), fun hv => (h.current r hr hv).trans hg⟩
      · simp only [bindInheritSection, ne_eq, hg, not_false_eq_true, ↓reduceIte]
        obtain ⟨-, hsup, hpend⟩ := (ha b hb).resolve_left fun he => hg he.symm
        refine ⟨fun hp => ?_, hpend r hr⟩
        have hle := h.listening.ahead r hr
        have hge : ¬r.sock.version < s.status.version := fun hlt => hsup ⟨r, hr, hp, hlt⟩
        have hne : r.sock.version ≠ s.status.version := fun hv => hg ((h.current r hr hv).symm.trans hp)
        omega
    exact {
      listening := hl
      group := fun r hr r' hr' => by
        simp only [enterInherit, List.mem_append, List.mem_singleton] at hr hr'
        rcases hr with hr | rfl <;> rcases hr' with hr' | rfl
        · exact h.group r hr r' hr'
        · exact match_new r hr
        · simpa [eq_comm] using match_new r' hr'
        · simp
      current := fun r hr hv => by
        simp only [enterInherit, List.mem_append, List.mem_singleton] at hr
        rcases hr with hr | rfl
        · exact h.current r hr hv
        · by_cases hg : s.status.pgid = b.pgid
          · exact hg.symm
          · simp only [enterInherit, bindInheritSection, ne_eq, hg, not_false_eq_true, ↓reduceIte] at hv
            omega }
  · -- The section of the first version, by a process of the group that holds the port.
    have hg : b.pgid = s.status.pgid := (ha b hb).resolve_right fun hpos => absurd hpos.1 (by omega)
    have hrecs : ∀ r ∈ (s.enterFirst k b true).recs, r.pgid = b.pgid ∧ r.sock.version = 0 := by
      intro r hr
      simp only [enterFirst, List.mem_append, List.mem_singleton] at hr
      rcases hr with hr | rfl
      · obtain ⟨hz, hall⟩ := h.listening.zero h0 (List.ne_nil_of_mem hr)
        exact ⟨(h.current r hr ((hall r hr).trans hz.symm)).trans hg.symm, hall r hr⟩
      · exact ⟨rfl, rfl⟩
    exact {
      listening := hl
      group := fun r hr r' hr' => by simp [hrecs r hr, hrecs r' hr']
      current := fun r hr _ => (hrecs r hr).1 }

theorem ordered_monitor {i : Nat} (h : s.Ordered) (hl : t.Listening) (hs : s.step (.monitor i) = some t) :
    t.Ordered := by
  obtain ⟨r, hr, rfl⟩ := monitor_inv hs
  have hmem := List.mem_of_getElem? hr
  rcases monitorSection_cases r.pgid s.status r.sock with ⟨-, he⟩ | ⟨-, hraise, he⟩ | ⟨-, -, he⟩
  · exact h.of_same hl (by rw [he]) (by rw [he]) (same_of_set hr _ rfl (by rw [he]))
  · -- The groups keep their versions; the one that is now current is that of the raising record.
    have same := same_of_set hr { r with
      sock := (monitorSection r.pgid s.status r.sock).2
      comOpen := r.comOpen && !r.sock.quits s.status } rfl (by rw [he])
    have hle := h.listening.ahead r hmem
    obtain ⟨hlt, -⟩ := raises_iff.mp hraise
    exact {
      listening := hl
      group := fun x hx x' hx' => by
        obtain ⟨y, hy, hp, hv⟩ := same x hx
        obtain ⟨y', hy', hp', hv'⟩ := same x' hx'
        rw [hp, hv, hp', hv']
        exact h.group y hy y' hy'
      current := fun x hx hxv => by
        obtain ⟨y, hy, hp, hv⟩ := same x hx
        simp only [he] at hxv ⊢
        rw [hp]
        exact (h.group y hy r hmem).mpr (by omega) }
  · exact h.of_same hl (by rw [he]) (by rw [he]) (same_of_set hr _ rfl (by rw [he]))

theorem step_ordered {a : PortAct} (h : s.Ordered) (ha : s.Timely a) (hs : handOverMachine.step s a = some t) :
    t.Ordered := by
  obtain ⟨hord, hs⟩ := Machine.restrict_step_iff.mp hs
  have hl := step_listening h.listening hord hs
  cases a with
  | claimName =>
    obtain ⟨-, rfl⟩ := claimName_inv hs
    exact h.of_same hl rfl rfl fun x hx => ⟨x, hx, rfl, rfl⟩
  | request =>
    obtain ⟨-, rfl⟩ := request_inv hs
    exact h.of_same hl rfl rfl fun x hx => ⟨x, hx, rfl, rfl⟩
  | bindFirst => exact ordered_bindFirst h hl hs
  | serve i k =>
    obtain ⟨r, b, hr, -, -, rfl⟩ := serve_inv hs
    refine h.of_same hl ?_ ?_ (same_of_set hr _ rfl ?_)
    all_goals
      simp only [answerSection]
      split <;> rfl
  | bindAnswered => exact ordered_bindAnswered h hl ha hs
  | bindFallback => cases hord
  | fork =>
    obtain rfl := fork_inv hs
    refine h.of_same hl rfl rfl fun x hx => ?_
    rcases List.mem_append.mp hx with hx | hx
    · exact ⟨x, hx, rfl, rfl⟩
    · obtain ⟨r, hr, -, rfl⟩ := mem_copies.mp hx
      exact ⟨r, hr, rfl, rfl⟩
  | monitor => exact ordered_monitor h hl hs
  | setLocked =>
    obtain ⟨r, hr, rfl⟩ := setLocked_inv hs
    exact h.of_same hl rfl rfl (same_of_set hr _ rfl rfl)
  | close => cases hord
  | closeCom => cases hord

/-- A bind that is not timely mixes the generations at once. -/
theorem timely_of_oneGeneration {a : PortAct} (h : s.Ordered) (hs : handOverMachine.step s a = some t)
    (ht : t.OneGeneration) : s.Timely a := by
  obtain ⟨-, hs⟩ := Machine.restrict_step_iff.mp hs
  cases a with
  | bindAnswered k =>
    obtain ⟨b, hb, hp, ⟨hpos, rfl⟩ | ⟨h0, rfl⟩⟩ := bindAnswered_inv hs
    · intro b' hb'
      obtain rfl : b = b' := Option.some.inj (hb.symm.trans hb')
      by_cases hg : s.status.pgid = b.pgid
      · exact Or.inl hg.symm
      · right
        have hnew : ∃ x ∈ (s.enterInherit k b).recs, x.pgid = b.pgid ∧ x.sock.version = s.status.version + 1 :=
          ⟨_, List.mem_append_right _ (List.mem_singleton_self _), rfl, by simp [bindInheritSection, hg]⟩
        obtain ⟨x, hx, hxg, hxv⟩ := hnew
        refine ⟨hpos, ?_, fun r hr hv => ?_⟩
        · rintro ⟨r, hr, hp, hlt⟩
          have := ht.older x hx ⟨r, List.mem_append_left _ hr, hp.trans hxg.symm, hlt⟩
          rw [hxv] at this
          change s.status.version + 1 ≤ s.status.version at this
          omega
        · by_contra hne
          exact ht.apart r (List.mem_append_left _ hr) x hx (fun he => hne (he.trans hxg)) (hv.trans hxv.symm)
    · -- On port 0 all records have version 0, that of another group too.
      intro b' hb'
      obtain rfl : b = b' := Option.some.inj (hb.symm.trans hb')
      left
      by_contra hne
      obtain ⟨r, hr, -, hv⟩ := h.listening.served fun he =>
        h.listening.answered he b (List.mem_of_getElem? hb) hp
      have hzero := (h.listening.zero h0 (List.ne_nil_of_mem hr)).2 r hr
      have hother := ht.apart r (List.mem_append_left _ hr) _ (List.mem_append_right _ (List.mem_singleton_self _))
        fun hg => hne (hg.symm.trans (h.current r hr hv))
      exact hother hzero
  | _ => trivial

/-! ### Runs -/

/-- A run of the hand-over of a port keeps one generation at a time in every state it reaches if and only if every inheriting
    bind of it is timely. -/
theorem oneGeneration_throughout_iff {s : PortState} (h : portMachine.init s) (as : List PortAct) :
    handOverMachine.Throughout OneGeneration s as ↔ handOverMachine.Steps Timely s as :=
  Machine.throughout_iff_steps (I := Ordered) (fun _ => Ordered.oneGeneration)
    (fun _ _ _ hi ha hs => step_ordered hi ha hs) (fun _ _ _ hi hs ht => timely_of_oneGeneration hi hs ht) as
    { listening := listening_init h
      group := fun r hr => by simp [h.1] at hr
      current := fun r hr => by simp [h.1] at hr }

/-- The port 8080 of the group 10 is updated to the group 20. -/
theorem oneGeneration_of_one_update :
    handOverMachine.Throughout OneGeneration (unused 8080)
        [.claimName 1 10, .bindFirst 0, .request 2 20, .serve 0 0, .bindAnswered 0, .monitor 1] ↔
      handOverMachine.Steps Timely (unused 8080)
        [.claimName 1 10, .bindFirst 0, .request 2 20, .serve 0 0, .bindAnswered 0, .monitor 1] :=
  oneGeneration_throughout_iff ⟨rfl, rfl, rfl⟩ _

/-- The groups 20 and 30 inherit from the group 10 at version 0, and 20 publishes version 1: the group 30
    monitors at version 1 as well. A delayed worker of the superseded group 10 then gets version 2. -/
theorem generations_mixed : ∃ t, handOverMachine.run (unused 8080)
      [.claimName 1 10, .bindFirst 0, .request 2 20, .request 3 30, .request 4 10, .serve 0 0, .serve 0 1,
        .serve 0 2, .bindAnswered 0, .bindAnswered 0, .monitor 1, .bindAnswered 0] = some t ∧
    t.status.version = 1 ∧ t.status.pgid = 20 ∧
    t.recs.map (fun r => (r.pgid, r.sock.version, r.sock.monitoring)) =
      [(10, 0, true), (20, 1, true), (30, 1, true), (10, 2, true)] ∧
    ¬t.OneGeneration := by
  refine ⟨_, rfl, rfl, rfl, rfl, fun h => ?_⟩
  have := h.apart _ (List.mem_of_getElem? (i := 1) rfl) _ (List.mem_of_getElem? (i := 2) rfl)
  exact this (by decide) (by decide)

end OpenDSU.PortState
