import OpenDSU.Theorems.PortStep
import Mathlib.Tactic.ByContra

/-! A port that some process has bound always has a listener of its current version.

A record stops monitoring on the strength of `status[DSU_VERSION]` alone. What makes that safe: the number
only rises to the version of a record that monitors, no record is more than one version ahead, and as long
as one monitors, the abstract name is held, so nobody starts again at version 0. -/

namespace OpenDSU.PortState

/-- The steps of hand-overs that complete, of processes that neither die nor close a socket of the port. -/
def Ordinary : PortAct → Bool
  | .bindFallback _ | .close _ | .closeCom _ => false
  | _ => true

/-- The port without failed hand-overs and closed sockets. -/
def handOverMachine : Machine PortState PortAct := portMachine.restrict Ordinary

/-- A record monitors the port at its current version. -/
def Served (s : PortState) : Prop :=
  ∃ r ∈ s.recs, r.sock.monitoring = true ∧ r.sock.version = s.status.version

/-- What ordinary steps keep. -/
structure Listening (s : PortState) : Prop where
  com : ∀ r ∈ s.recs, r.sock.monitoring = true → r.comOpen = true
  served : s.recs ≠ [] → s.Served
  ahead : ∀ r ∈ s.recs, r.sock.version ≤ s.status.version + 1
  /-- A process that got the name and has not entered its section is alone with it. -/
  named : s.recs ≠ [] → ∀ b ∈ s.binders, b.phase ≠ .named
  single : s.binders.countP (·.phase == .named) ≤ 1
  answered : s.recs = [] → ∀ b ∈ s.binders, b.phase ≠ .answered
  /-- No hand-over of port 0 ever inherits, since `bind` wants a port greater than 0. -/
  zero : s.port = 0 → s.recs ≠ [] → s.status.version = 0 ∧ ∀ r ∈ s.recs, r.sock.version = 0

variable {s t : PortState}

/-- As long as a record monitors, the abstract name is held. -/
theorem Listening.nameHeld (h : s.Listening) (hb : s.recs ≠ []) : s.nameHeld = true := by
  obtain ⟨r, hr, hm, -⟩ := h.served hb
  have : s.recs.any (·.comOpen) = true := List.any_eq_true.mpr ⟨r, hr, h.com r hr hm⟩
  simp [PortState.nameHeld, this]

theorem listening_init (h : portMachine.init s) : s.Listening := by
  obtain ⟨hr, hb, -⟩ := h
  constructor <;> simp [hr, hb]

/-! ### One step -/

theorem listening_claimName {pid : Nat} {pgid : Int} (h : s.Listening)
    (hs : s.step (.claimName pid pgid) = some t) : t.Listening := by
  obtain ⟨hn, rfl⟩ := claimName_inv hs
  have hempty : s.recs = [] := by
    by_contra hne
    rw [h.nameHeld hne] at hn
    cases hn
  have hnone : s.binders.countP (·.phase == .named) = 0 := by
    rw [List.countP_eq_zero]
    intro b hb hp
    have : s.binders.any (·.phase != .asking) = true :=
      List.any_eq_true.mpr ⟨b, hb, by rw [beq_iff_eq.mp hp]; rfl⟩
    simp [nameHeld, this] at hn
  exact {
    com := h.com
    served := h.served
    ahead := h.ahead
    named := fun hne => absurd hempty hne
    single := by simp [hnone]
    answered := fun he b hb => by
      rcases List.mem_append.mp hb with hb | hb
      · exact h.answered he b hb
      · rw [List.mem_singleton.mp hb]
        simp
    zero := h.zero }

theorem listening_request {pid : Nat} {pgid : Int} (h : s.Listening)
    (hs : s.step (.request pid pgid) = some t) : t.Listening := by
  obtain ⟨-, rfl⟩ := request_inv hs
  exact {
    com := h.com
    served := h.served
    ahead := h.ahead
    named := fun hne b hb => by
      rcases List.mem_append.mp hb with hb | hb
      · exact h.named hne b hb
      · rw [List.mem_singleton.mp hb]
        simp
    single := by simpa [List.countP_append] using h.single
    answered := fun he b hb => by
      rcases List.mem_append.mp hb with hb | hb
      · exact h.answered he b hb
      · rw [List.mem_singleton.mp hb]
        simp
    zero := h.zero }

/-- The first version enters: nobody else has a record of the port, or the port is 0. -/
theorem listening_enterFirst {k : Nat} {b : Binder} (h : s.Listening)
    (hnamed : ∀ b' ∈ s.binders.eraseIdx k, b'.phase ≠ .named) (hver : ∀ r ∈ s.recs, r.sock.version = 0) :
    (s.enterFirst k b true).Listening where
  com r hr hm := by
    simp only [enterFirst, List.mem_append, List.mem_singleton] at hr
    rcases hr with hr | rfl
    · exact h.com r hr hm
    · rfl
  served _ := by
    refine ⟨_, List.mem_append_right _ (List.mem_singleton_self _), ?_, ?_⟩
    · rfl
    · rfl
  ahead r hr := by
    simp only [enterFirst, List.mem_append, List.mem_singleton] at hr
    rcases hr with hr | rfl
    · simp [enterFirst, bindFirstSection, hver r hr]
    · simp [enterFirst, bindFirstSection]
  named _ := hnamed
  single := by
    have : (s.binders.eraseIdx k).countP (·.phase == .named) = 0 :=
      List.countP_eq_zero.mpr fun b' hb' hp => hnamed b' hb' (beq_iff_eq.mp hp)
    simp [enterFirst, this]
  answered he := by simp [enterFirst] at he
  zero _ _ := by
    refine ⟨rfl, fun r hr => ?_⟩
    simp only [enterFirst, List.mem_append, List.mem_singleton] at hr
    rcases hr with hr | rfl
    · exact hver r hr
    · rfl

theorem listening_enterInherit {k : Nat} {b : Binder} (h : s.Listening) (hport : 0 < s.port) (hb : s.recs ≠ []) :
    (s.enterInherit k b).Listening where
  com r hr hm := by
    simp only [enterInherit, List.mem_append, List.mem_singleton] at hr
    rcases hr with hr | rfl
    · exact h.com r hr hm
    · rfl
  served _ := by
    obtain ⟨r, hr, hm, hv⟩ := h.served hb
    exact ⟨r, List.mem_append_left _ hr, hm, hv⟩
  ahead r hr := by
    simp only [enterInherit, List.mem_append, List.mem_singleton] at hr
    rcases hr with hr | rfl
    · exact h.ahead r hr
    · simp only [enterInherit, bindInheritSection]
      split <;> omega
  named _ b' hb' := h.named hb b' (List.mem_of_mem_eraseIdx hb')
  single := Nat.le_trans ((List.eraseIdx_sublist _ _).countP_le) h.single
  answered he := by simp [enterInherit] at he
  zero h0 := by
    have : s.port = 0 := h0
    omega

theorem listening_bindFirst {k : Nat} (h : s.Listening) (hs : s.step (.bindFirst k) = some t) :
    t.Listening := by
  obtain ⟨b, hb, hp, rfl⟩ := bindFirst_inv hs
  have hempty : s.recs = [] := by
    by_contra hne
    exact h.named hne b (List.mem_of_getElem? hb) hp
  refine listening_enterFirst h (fun b' hb' hp' => ?_) (by simp [hempty])
  -- Two processes with the name would be counted twice.
  obtain ⟨l₁, l₂, hsplit, -, herase⟩ := split_getElem? hb
  rw [herase] at hb'
  have hpos : 0 < (l₁ ++ l₂).countP (·.phase == .named) :=
    List.countP_pos_iff.mpr ⟨b', hb', by simp [hp']⟩
  have hone := h.single
  rw [hsplit] at hone
  simp only [List.countP_append, List.countP_cons, hp, beq_self_eq_true, ↓reduceIte] at hone hpos
  omega

theorem listening_bindAnswered {k : Nat} (h : s.Listening) (hs : s.step (.bindAnswered k) = some t) :
    t.Listening := by
  obtain ⟨b, hb, hp, hcase⟩ := bindAnswered_inv hs
  have hne : s.recs ≠ [] := fun he => h.answered he b (List.mem_of_getElem? hb) hp
  rcases hcase with ⟨hport, rfl⟩ | ⟨hport, rfl⟩
  · exact listening_enterInherit h hport hne
  · exact listening_enterFirst h (fun b' hb' => h.named hne b' (List.mem_of_mem_eraseIdx hb'))
      (h.zero hport hne).2

/-- A step that stores one record with the same version and monitoring, under the same version. -/
theorem listening_set {i : Nat} {r r' : Rec} {bs : List Binder} {st : Status} (h : s.Listening)
    (hr : s.recs[i]? = some r) (hv : r'.sock.version = r.sock.version)
    (hm : r'.sock.monitoring = r.sock.monitoring) (hc : r'.comOpen = r.comOpen)
    (hst : st.version = s.status.version) (hnamed : ∀ b ∈ bs, b.phase = .named → b ∈ s.binders)
    (hsingle : bs.countP (·.phase == .named) ≤ s.binders.countP (·.phase == .named)) :
    ({ s with status := st, recs := s.recs.set i r', binders := bs } : PortState).Listening := by
  have hmem := List.mem_of_getElem? hr
  have hne : s.recs ≠ [] := List.ne_nil_of_mem hmem
  exact {
    com := fun x hx hxm => by
      rcases mem_set_cases hr hx with rfl | hx
      · rw [hc]
        exact h.com r hmem (hm ▸ hxm)
      · exact h.com x hx hxm
    served := fun _ => by
      obtain ⟨x, hx, hxm, hxv⟩ := h.served hne
      rcases mem_set_of_mem (y := r') hr hx with rfl | hx
      · exact ⟨r', mem_set_self hr, hm.trans hxm, by rw [hv, hxv]; exact hst.symm⟩
      · exact ⟨x, hx, hxm, hxv.trans hst.symm⟩
    ahead := fun x hx => by
      show x.sock.version ≤ st.version + 1
      rw [hst]
      rcases mem_set_cases hr hx with rfl | hx
      · rw [hv]
        exact h.ahead r hmem
      · exact h.ahead x hx
    named := fun _ b hb hp => h.named hne b (hnamed b hb hp) hp
    single := Nat.le_trans hsingle h.single
    answered := fun he => by
      have := mem_set_self (y := r') hr
      rw [show s.recs.set i r' = [] from he] at this
      cases this
    zero := fun h0 _ => by
      obtain ⟨hz, hall⟩ := h.zero h0 hne
      refine ⟨hst.trans hz, fun x hx => ?_⟩
      rcases mem_set_cases hr hx with rfl | hx
      · rw [hv]
        exact hall r hmem
      · exact hall x hx }

theorem listening_serve {i k : Nat} (h : s.Listening) (hs : s.step (.serve i k) = some t) : t.Listening := by
  obtain ⟨r, b, hr, hb, hp, rfl⟩ := serve_inv hs
  have hv : (answerSection s.status r.sock).2.version = r.sock.version := by
    unfold answerSection
    split <;> rfl
  have hm : (answerSection s.status r.sock).2.monitoring = r.sock.monitoring := by
    unfold answerSection
    split <;> rfl
  have hst : (answerSection s.status r.sock).1.version = s.status.version := by
    unfold answerSection
    split <;> rfl
  refine listening_set h hr hv hm rfl hst ?_ ?_
  · intro b' hb' hp'
    split at hb'
    · rcases mem_set_cases hb hb' with rfl | hb'
      · cases hp'
      · exact hb'
    · exact hb'
  · split
    · obtain ⟨l₁, l₂, hsplit, hset, -⟩ := split_getElem? hb
      rw [hset, hsplit]
      simp [List.countP_append, hp]
    · exact Nat.le_refl _

theorem listening_setLocked {i : Nat} {locked : Bool} (h : s.Listening)
    (hs : s.step (.setLocked i locked) = some t) : t.Listening := by
  obtain ⟨r, hr, rfl⟩ := setLocked_inv hs
  exact listening_set h hr rfl rfl rfl rfl (fun _ hb _ => hb) (Nat.le_refl _)

theorem listening_fork {pid child : Nat} (h : s.Listening) (hs : s.step (.fork pid child) = some t) :
    t.Listening := by
  obtain rfl := fork_inv hs
  have hne : s.recs ++ s.copies pid child ≠ [] → s.recs ≠ [] := by
    intro hne he
    simp [he, copies] at hne
  -- A copy has the version, the monitoring flag and the descriptor of its original.
  have orig : ∀ x ∈ s.recs ++ s.copies pid child, ∃ r ∈ s.recs, x.sock = r.sock ∧ x.comOpen = r.comOpen := by
    intro x hx
    rcases List.mem_append.mp hx with hx | hx
    · exact ⟨x, hx, rfl, rfl⟩
    · obtain ⟨r, hr, -, rfl⟩ := mem_copies.mp hx
      exact ⟨r, hr, rfl, rfl⟩
  exact {
    com := fun x hx hxm => by
      obtain ⟨r, hr, hsock, hc⟩ := orig x hx
      rw [hc]
      exact h.com r hr (hsock ▸ hxm)
    served := fun hx => by
      obtain ⟨r, hr, hm, hv⟩ := h.served (hne hx)
      exact ⟨r, List.mem_append_left _ hr, hm, hv⟩
    ahead := fun x hx => by
      obtain ⟨r, hr, hsock, -⟩ := orig x hx
      rw [hsock]
      exact h.ahead r hr
    named := fun hx => h.named (hne hx)
    single := h.single
    answered := fun he => h.answered (List.append_eq_nil_iff.mp he).1
    zero := fun h0 hx => by
      obtain ⟨hz, hall⟩ := h.zero h0 (hne hx)
      refine ⟨hz, fun x hx => ?_⟩
      obtain ⟨r, hr, hsock, -⟩ := orig x hx
      rw [hsock]
      exact hall r hr }

/-- A record that stops monitoring is older than the one that serves the current version. -/
theorem listening_quit {i : Nat} {r r' : Rec} {st : Status} (h : s.Listening) (hr : s.recs[i]? = some r)
    (hq : r.sock.quits s.status = true) (hv : r'.sock.version = r.sock.version)
    (hm : r'.sock.monitoring = false) (hst : st.version = s.status.version) :
    ({ s with status := st, recs := s.recs.set i r' } : PortState).Listening := by
  have hmem := List.mem_of_getElem? hr
  have hne : s.recs ≠ [] := List.ne_nil_of_mem hmem
  have hold := (quits_iff.mp hq).1
  exact {
    com := fun x hx hxm => by
      rcases mem_set_cases hr hx with rfl | hx
      · rw [hm] at hxm
        cases hxm
      · exact h.com x hx hxm
    served := fun _ => by
      obtain ⟨x, hx, hxm, hxv⟩ := h.served hne
      rcases mem_set_of_mem (y := r') hr hx with rfl | hx
      · omega
      · exact ⟨x, hx, hxm, hxv.trans hst.symm⟩
    ahead := fun x hx => by
      show x.sock.version ≤ st.version + 1
      rw [hst]
      rcases mem_set_cases hr hx with rfl | hx
      · rw [hv]
        exact h.ahead r hmem
      · exact h.ahead x hx
    named := fun _ => h.named hne
    single := h.single
    answered := fun he => by
      have := mem_set_self (y := r') hr
      rw [show s.recs.set i r' = [] from he] at this
      cases this
    zero := fun h0 _ => by
      obtain ⟨hz, hall⟩ := h.zero h0 hne
      refine ⟨hst.trans hz, fun x hx => ?_⟩
      rcases mem_set_cases hr hx with rfl | hx
      · rw [hv]
        exact hall r hmem
      · exact hall x hx }

/-- A record that raises the version is one ahead of it and serves the port from then on. -/
theorem listening_raise {i : Nat} {r r' : Rec} {st : Status} (h : s.Listening) (hr : s.recs[i]? = some r)
    (hraise : r.sock.raises s.status = true) (hsock : r'.sock = r.sock) (hc : r'.comOpen = r.comOpen)
    (hst : st.version = s.status.version + 1) :
    ({ s with status := st, recs := s.recs.set i r' } : PortState).Listening := by
  have hmem := List.mem_of_getElem? hr
  have hne : s.recs ≠ [] := List.ne_nil_of_mem hmem
  obtain ⟨hlt, hmon⟩ := raises_iff.mp hraise
  have hle := h.ahead r hmem
  have heq : r.sock.version = st.version := by omega
  exact {
    com := fun x hx hxm => by
      rcases mem_set_cases hr hx with rfl | hx
      · rw [hc]
        exact h.com r hmem hmon
      · exact h.com x hx hxm
    served := fun _ => ⟨r', mem_set_self hr, by rw [hsock]; exact hmon, by rw [hsock]; exact heq⟩
    ahead := fun x hx => by
      show x.sock.version ≤ st.version + 1
      rcases mem_set_cases hr hx with rfl | hx
      · rw [hsock]
        omega
      · have := h.ahead x hx
        omega
    named := fun _ => h.named hne
    single := h.single
    answered := fun he => by
      have := mem_set_self (y := r') hr
      rw [show s.recs.set i r' = [] from he] at this
      cases this
    zero := fun h0 _ => by
      obtain ⟨hz, hall⟩ := h.zero h0 hne
      have := hall r hmem
      omega }

theorem listening_monitor {i : Nat} (h : s.Listening) (hs : s.step (.monitor i) = some t) : t.Listening := by
  obtain ⟨r, hr, rfl⟩ := monitor_inv hs
  rcases monitorSection_cases r.pgid s.status r.sock with ⟨hq, he⟩ | ⟨hq, hraise, he⟩ | ⟨hq, -, he⟩
  · rw [he]
    exact listening_quit h hr hq rfl rfl rfl
  · simp only [he, hq]
    exact listening_raise h hr hraise rfl (by simp) rfl
  · rw [he]
    exact listening_set h hr rfl rfl (by simp [hq]) rfl (fun _ hb _ => hb) (Nat.le_refl _)

theorem step_listening {a : PortAct} (h : s.Listening) (ha : Ordinary a = true) (hs : s.step a = some t) :
    t.Listening := by
  cases a with
  | claimName pid pgid => exact listening_claimName h hs
  | request pid pgid => exact listening_request h hs
  | bindFirst k => exact listening_bindFirst h hs
  | serve i k => exact listening_serve h hs
  | bindAnswered k => exact listening_bindAnswered h hs
  | bindFallback k => cases ha
  | fork pid child => exact listening_fork h hs
  | monitor i => exact listening_monitor h hs
  | setLocked i locked => exact listening_setLocked h hs
  | close i => cases ha
  | closeCom i => cases ha

theorem listening_of_reachable (h : handOverMachine.Reachable s) : s.Listening :=
  h.invariant (fun _ => listening_init) fun _ _ _ hi hs =>
    have ⟨ha, hs⟩ := Machine.restrict_step_iff.mp hs
    step_listening hi ha hs

/-! ### The version -/

/-- Once the port is bound, an ordinary step keeps the version or raises it by one to the version of the
    record that raises it. -/
theorem step_version {a : PortAct} (h : s.Listening) (hb : s.recs ≠ []) (ha : Ordinary a = true)
    (hs : s.step a = some t) :
    t.status.version = s.status.version ∨
      t.status.version = s.status.version + 1 ∧
        ∃ i r, a = .monitor i ∧ s.recs[i]? = some r ∧ r.sock.version = t.status.version := by
  cases a with
  | claimName =>
    obtain ⟨-, rfl⟩ := claimName_inv hs
    exact Or.inl rfl
  | request =>
    obtain ⟨-, rfl⟩ := request_inv hs
    exact Or.inl rfl
  | bindFirst k =>
    obtain ⟨b, hk, hp, -⟩ := bindFirst_inv hs
    exact absurd hp (h.named hb b (List.mem_of_getElem? hk))
  | serve i k =>
    obtain ⟨r, b, -, -, -, rfl⟩ := serve_inv hs
    left
    simp only [answerSection]
    split <;> rfl
  | bindAnswered k =>
    obtain ⟨b, -, -, ⟨-, rfl⟩ | ⟨h0, rfl⟩⟩ := bindAnswered_inv hs
    · exact Or.inl rfl
    · exact Or.inl (h.zero h0 hb).1.symm
  | bindFallback => cases ha
  | fork =>
    obtain rfl := fork_inv hs
    exact Or.inl rfl
  | monitor i =>
    obtain ⟨r, hr, rfl⟩ := monitor_inv hs
    rcases monitorSection_cases r.pgid s.status r.sock with ⟨-, he⟩ | ⟨-, hraise, he⟩ | ⟨-, -, he⟩
    · exact Or.inl (by rw [he])
    · refine Or.inr ⟨by rw [he], i, r, rfl, hr, ?_⟩
      obtain ⟨hlt, -⟩ := raises_iff.mp hraise
      have hle := h.ahead r (List.mem_of_getElem? hr)
      simp only [he]
      omega
    · exact Or.inl (by rw [he])
  | setLocked =>
    obtain ⟨r, -, rfl⟩ := setLocked_inv hs
    exact Or.inl rfl
  | close => cases ha
  | closeCom => cases ha

/-- In every state that ordinary steps reach after the first bind, some record monitors the port at its
    version, no record is more than one version ahead, and each further step keeps the version or raises
    it by exactly one to the version of the process that raises it. -/
theorem port_served (h : handOverMachine.Reachable s) (hb : s.recs ≠ []) :
    (∃ r ∈ s.recs, r.sock.monitoring = true ∧ r.sock.version = s.status.version) ∧
    (∀ r ∈ s.recs, r.sock.version ≤ s.status.version + 1) ∧
    ∀ a t, handOverMachine.step s a = some t →
      t.status.version = s.status.version ∨
        t.status.version = s.status.version + 1 ∧
          ∃ i r, a = .monitor i ∧ s.recs[i]? = some r ∧ r.sock.version = t.status.version := by
  have hl := listening_of_reachable h
  refine ⟨hl.served hb, hl.ahead, fun a t hs => ?_⟩
  obtain ⟨ha, hs⟩ := Machine.restrict_step_iff.mp hs
  exact step_version hl hb ha hs

/-- Process 3 has inherited the port of process 1 and has not raised its version yet. -/
theorem port_served_during_hand_over : ∃ s, handOverMachine.run (unused 8080)
      [.claimName 1 10, .bindFirst 0, .request 3 20, .serve 0 0, .bindAnswered 0] = some s ∧
    s.recs.length = 2 ∧
    (∃ r ∈ s.recs, r.sock.monitoring = true ∧ r.sock.version = s.status.version) ∧
    (∀ r ∈ s.recs, r.sock.version ≤ s.status.version + 1) ∧
    ∀ a t, handOverMachine.step s a = some t →
      t.status.version = s.status.version ∨
        t.status.version = s.status.version + 1 ∧
          ∃ i r, a = .monitor i ∧ s.recs[i]? = some r ∧ r.sock.version = t.status.version :=
  ⟨_, rfl, rfl, port_served (.of_run [.claimName 1 10, .bindFirst 0, .request 3 20, .serve 0 0, .bindAnswered 0]
    (.init (s := unused 8080) ⟨rfl, rfl, rfl⟩) rfl) (by decide)⟩

end OpenDSU.PortState
