import OpenDSU.Theorems.PortStep
import Mathlib.Algebra.Order.Ring.Int

/-! The counter `status[DSU_TRANSFER]`: when it is the number of records that have answered a request.

`answerSection` counts a record once, but `dsu_monitor_fd` lowers the counter for every record that stops
monitoring, whether it was counted or not; a fork copies a counted record, `close` drops one, a record may
answer after it has stopped monitoring, and the section of a first version clears the counter. A run keeps
the counter exact if and only if none of its steps does one of these. -/

namespace OpenDSU.PortState

/-- The record is of an older version than the port. -/
def Superseded (s : PortState) (r : Rec) : Prop := r.sock.version < s.status.version

/-- `status[DSU_TRANSFER]` is the number of records with `transfer` set, all of which monitor; so it is not
    negative, and it is 0 when every superseded record has stopped monitoring and no record of the running
    version has begun another hand-over. -/
structure TransferExact (s : PortState) : Prop where
  count : s.status.transfer = (s.recs.countP (·.sock.transfer) : Int)
  monitored : ∀ r ∈ s.recs, r.sock.transfer = true → r.sock.monitoring = true
  nonneg : 0 ≤ s.status.transfer
  settled : (∀ r ∈ s.recs, s.Superseded r → r.sock.monitoring = false) →
    (∀ r ∈ s.recs, ¬s.Superseded r → r.sock.transfer = false) → s.status.transfer = 0

/-- What a step must respect: the section of a first version finds no counted record, only a monitoring
    record answers, a record that stops monitoring is counted, and no counted record is copied or closed, nor
    its `comfd`. -/
def Respects (s : PortState) : PortAct → Prop
  | .bindFirst _ | .bindFallback _ => ∀ r ∈ s.recs, r.sock.transfer = false
  | .bindAnswered _ => s.port = 0 → ∀ r ∈ s.recs, r.sock.transfer = false
  | .serve i _ => ∀ r, s.recs[i]? = some r → r.sock.monitoring = true
  | .fork pid _ => ∀ r ∈ s.recs, r.pid = pid → r.sock.transfer = false
  | .monitor i => ∀ r, s.recs[i]? = some r → r.sock.quits s.status = true → r.sock.transfer = true
  | .close i | .closeCom i => ∀ r, s.recs[i]? = some r → r.sock.transfer = false
  | _ => True

/-- The two facts the others follow from. -/
structure Counted (s : PortState) : Prop where
  count : s.status.transfer = (s.recs.countP (·.sock.transfer) : Int)
  monitored : ∀ r ∈ s.recs, r.sock.transfer = true → r.sock.monitoring = true

variable {s t : PortState}

theorem TransferExact.counted (h : s.TransferExact) : s.Counted := ⟨h.count, h.monitored⟩

theorem Counted.exact (h : s.Counted) : s.TransferExact where
  count := h.count
  monitored := h.monitored
  nonneg := by
    rw [h.count]
    exact Int.natCast_nonneg _
  settled hold hnew := by
    have hnone : ∀ r ∈ s.recs, ¬r.sock.transfer = true := by
      intro r hr ht
      by_cases hs : s.Superseded r
      · have := h.monitored r hr ht
        rw [hold r hr hs] at this
        cases this
      · rw [hnew r hr hs] at ht
        cases ht
    rw [h.count, List.countP_eq_zero.mpr hnone]
    rfl

/-! ### One record -/

/-- The copies of a fork that are counted are those of the counted records of the parent. -/
theorem countP_copies (pid child : Nat) :
    (s.copies pid child).countP (·.sock.transfer) = 0 ↔ ∀ r ∈ s.recs, r.pid = pid → r.sock.transfer = false := by
  rw [List.countP_eq_zero]
  constructor
  · intro h r hr hp
    have := h { r with pid := child } (mem_copies.mpr ⟨r, hr, hp, rfl⟩)
    simpa using this
  · intro h r hr
    obtain ⟨r₀, hr₀, hp, rfl⟩ := mem_copies.mp hr
    simpa using h r₀ hr₀ hp

/-! ### One step -/

/-- The section of a first version clears the counter: right exactly when there was nothing to count. -/
theorem enterFirst_counted {k : Nat} {b : Binder} {c : Bool} (h : s.Counted) :
    (s.enterFirst k b c).Counted ↔ ∀ r ∈ s.recs, r.sock.transfer = false := by
  have hcount : (s.enterFirst k b c).recs.countP (·.sock.transfer) = s.recs.countP (·.sock.transfer) := by
    simp [enterFirst, bindFirstSection]
  constructor
  · intro ht r hr
    have h0 : (0 : Int) = (s.recs.countP (·.sock.transfer) : Int) := by
      rw [← hcount, ← ht.count]
      rfl
    have := List.countP_eq_zero.mp (by omega : s.recs.countP (·.sock.transfer) = 0) r hr
    simpa using this
  · intro hnone
    refine ⟨?_, ?_⟩
    · rw [hcount, List.countP_eq_zero.mpr fun r hr => by simp [hnone r hr]]
      rfl
    · intro r hr ht
      simp only [enterFirst, List.mem_append, List.mem_singleton] at hr
      rcases hr with hr | rfl
      · exact h.monitored r hr ht
      · simp [bindFirstSection] at ht

theorem enterInherit_counted {k : Nat} {b : Binder} (h : s.Counted) : (s.enterInherit k b).Counted := by
  refine ⟨?_, ?_⟩
  · simp [enterInherit, bindInheritSection, fresh, dsuSocketListInit, h.count]
  · intro r hr ht
    simp only [enterInherit, List.mem_append, List.mem_singleton] at hr
    rcases hr with hr | rfl
    · exact h.monitored r hr ht
    · simp [bindInheritSection, fresh, dsuSocketListInit] at ht

theorem serve_counted {i k : Nat} (h : s.Counted) (hs : s.step (.serve i k) = some t) :
    t.Counted ↔ s.Respects (.serve i k) := by
  obtain ⟨r, b, hr, -, -, rfl⟩ := serve_inv hs
  have hmem := List.mem_of_getElem? hr
  simp only [Respects, hr, Option.some.injEq, forall_eq']
  constructor
  · intro ht
    cases hm : r.sock.monitoring
    · -- The record that answered is counted now, and still does not monitor.
      have := ht.monitored { r with sock := (answerSection s.status r.sock).2 } (mem_set_self hr)
      cases htr : r.sock.transfer <;> simp [answerSection, htr, hm] at this
    · rfl
  · intro hm
    refine ⟨?_, ?_⟩
    · have hc := countP_set_add (p := fun r : Rec => r.sock.transfer) hr
        { r with sock := (answerSection s.status r.sock).2 }
      have h0 := h.count
      cases htr : r.sock.transfer <;> simp [answerSection, htr] at hc ⊢ <;> omega
    · intro r' hr' ht'
      rcases mem_set_cases hr hr' with rfl | hr'
      · cases htr : r.sock.transfer <;> simp [answerSection, htr, hm]
      · exact h.monitored r' hr' ht'

theorem monitor_counted {i : Nat} (h : s.Counted) (hs : s.step (.monitor i) = some t) :
    t.Counted ↔ s.Respects (.monitor i) := by
  obtain ⟨r, hr, rfl⟩ := monitor_inv hs
  have h0 := h.count
  simp only [Respects, hr, Option.some.injEq, forall_eq']
  rcases monitorSection_cases r.pgid s.status r.sock with ⟨hq, he⟩ | ⟨hq, -, he⟩ | ⟨hq, -, he⟩
  · simp only [he, hq, forall_const]
    have hc := countP_set_add (p := fun r : Rec => r.sock.transfer) hr { r with
      sock := { r.sock with monitoring := false, transfer := false }, comOpen := r.comOpen && !true }
    constructor
    · intro ht
      have := ht.count
      cases htr : r.sock.transfer
      · simp only [htr, Bool.false_eq_true, ↓reduceIte, Nat.add_zero] at hc this
        omega
      · rfl
    · intro htr
      refine ⟨?_, ?_⟩
      · simp only [htr, ↓reduceIte, Bool.false_eq_true, Nat.add_zero] at hc
        simp only
        omega
      · intro r' hr' ht'
        rcases mem_set_cases hr hr' with rfl | hr'
        · simp at ht'
        · exact h.monitored r' hr' ht'
  all_goals
    simp only [he, hq, Bool.false_eq_true, false_imp_iff, iff_true]
    refine ⟨?_, ?_⟩
    · have hc := countP_set_add (p := fun r : Rec => r.sock.transfer) hr { r with comOpen := r.comOpen && !false }
      simp only at hc ⊢
      omega
    · intro r' hr' ht'
      rcases mem_set_cases hr hr' with rfl | hr'
      · exact h.monitored r (List.mem_of_getElem? hr) ht'
      · exact h.monitored r' hr' ht'

theorem close_counted {i : Nat} (h : s.Counted) (hs : s.step (.close i) = some t) :
    t.Counted ↔ s.Respects (.close i) := by
  obtain ⟨r, hr, rfl⟩ := close_inv hs
  have h0 := h.count
  have hc := countP_eraseIdx_add (p := fun r : Rec => r.sock.transfer) hr
  simp only [Respects, hr, Option.some.injEq, forall_eq']
  constructor
  · intro ht
    have := ht.count
    cases htr : r.sock.transfer
    · rfl
    · simp only [htr, ↓reduceIte] at hc this
      omega
  · intro htr
    refine ⟨?_, fun r' hr' => h.monitored r' (List.mem_of_mem_eraseIdx hr')⟩
    simp only [htr, Bool.false_eq_true, ↓reduceIte, Nat.add_zero] at hc
    simp only
    omega

theorem closeCom_counted {i : Nat} (h : s.Counted) (hs : s.step (.closeCom i) = some t) :
    t.Counted ↔ s.Respects (.closeCom i) := by
  obtain ⟨r, hr, -, rfl⟩ := closeCom_inv hs
  have h0 := h.count
  have hc := countP_set_add (p := fun r : Rec => r.sock.transfer) hr
    { r with sock := { r.sock with monitoring := false }, comOpen := false }
  simp only [Respects, hr, Option.some.injEq, forall_eq']
  constructor
  · intro ht
    cases htr : r.sock.transfer
    · rfl
    · have := ht.monitored { r with sock := { r.sock with monitoring := false }, comOpen := false }
        (mem_set_self hr) htr
      cases this
  · intro htr
    refine ⟨?_, fun r' hr' ht' => ?_⟩
    · simp only at hc ⊢
      omega
    · rcases mem_set_cases hr hr' with rfl | hr'
      · simp [htr] at ht'
      · exact h.monitored r' hr' ht'

theorem setLocked_counted {i : Nat} {locked : Bool} (h : s.Counted)
    (hs : s.step (.setLocked i locked) = some t) : t.Counted := by
  obtain ⟨r, hr, rfl⟩ := setLocked_inv hs
  have h0 := h.count
  have hc := countP_set_add (p := fun r : Rec => r.sock.transfer) hr
    { r with sock := { r.sock with locked := locked } }
  refine ⟨?_, fun r' hr' ht' => ?_⟩
  · simp only at hc ⊢
    omega
  · rcases mem_set_cases hr hr' with rfl | hr'
    · exact h.monitored r (List.mem_of_getElem? hr) ht'
    · exact h.monitored r' hr' ht'

theorem fork_counted {pid child : Nat} (h : s.Counted) (hs : s.step (.fork pid child) = some t) :
    t.Counted ↔ s.Respects (.fork pid child) := by
  obtain rfl := fork_inv hs
  have h0 := h.count
  rw [Respects, ← countP_copies pid child]
  constructor
  · intro ht
    have := ht.count
    simp only [List.countP_append] at this
    omega
  · intro hc
    refine ⟨?_, fun r hr ht => ?_⟩
    · simp only [List.countP_append]
      omega
    · rcases List.mem_append.mp hr with hr | hr
      · exact h.monitored r hr ht
      · obtain ⟨r₀, hr₀, -, rfl⟩ := mem_copies.mp hr
        exact h.monitored r₀ hr₀ ht

/-- A step keeps the counter exact if and only if it respects the records it counts. -/
theorem step_counted {a : PortAct} (h : s.Counted) (hs : s.step a = some t) : t.Counted ↔ s.Respects a := by
  cases a with
  | claimName =>
    obtain ⟨-, rfl⟩ := claimName_inv hs
    exact ⟨fun _ => trivial, fun _ => ⟨h.count, h.monitored⟩⟩
  | request =>
    obtain ⟨-, rfl⟩ := request_inv hs
    exact ⟨fun _ => trivial, fun _ => ⟨h.count, h.monitored⟩⟩
  | bindFirst k =>
    obtain ⟨b, -, -, rfl⟩ := bindFirst_inv hs
    exact enterFirst_counted h
  | bindFallback k =>
    obtain ⟨b, -, -, rfl⟩ := bindFallback_inv hs
    exact enterFirst_counted h
  | bindAnswered k =>
    obtain ⟨b, -, -, ⟨hp, rfl⟩ | ⟨hp, rfl⟩⟩ := bindAnswered_inv hs
    · have hne : s.port ≠ 0 := by omega
      simp [Respects, hne, enterInherit_counted h]
    · simp [Respects, hp, enterFirst_counted h]
  | serve i k => exact serve_counted h hs
  | fork pid child => exact fork_counted h hs
  | monitor i => exact monitor_counted h hs
  | setLocked i b => exact ⟨fun _ => trivial, fun _ => setLocked_counted h hs⟩
  | close i => exact close_counted h hs
  | closeCom i => exact closeCom_counted h hs

/-! ### Runs -/

/-- From fresh shared memory, a run keeps `status[DSU_TRANSFER]` exact in every state it reaches if and
    only if each of its steps respects the records it counts. -/
theorem transferExact_throughout_iff (port : Nat) (as : List PortAct) :
    portMachine.Throughout TransferExact (unused port) as ↔ portMachine.Steps Respects (unused port) as :=
  Machine.throughout_iff_steps (I := Counted) (fun _ => Counted.exact)
    (fun _ _ _ hi ha hs => (step_counted hi hs).mpr ha)
    (fun _ _ _ hi hs ht => (step_counted hi hs).mp ht.counted) as ⟨rfl, fun _ hr => by cases hr⟩

/-- Process 1 binds and forks worker 2, process 3 of another group inherits through process 1 and takes
    over. Process 1 leaves and is counted out; worker 2, which never answered, is counted out as well. -/
theorem transfer_below_zero : ∃ t, portMachine.run (unused 8080)
      [.claimName 1 10, .bindFirst 0, .fork 1 2, .request 3 20, .serve 0 0, .bindAnswered 0,
        .monitor 2, .monitor 0, .monitor 1] = some t ∧
    t.status.transfer = -1 ∧ t.recs.countP (·.sock.transfer) = 0 ∧ ¬t.TransferExact := by
  refine ⟨_, rfl, by decide, by decide, fun h => ?_⟩
  have := h.nonneg
  revert this
  decide

end OpenDSU.PortState
