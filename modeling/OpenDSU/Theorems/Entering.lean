import OpenDSU.Theorems.Stranded
import Mathlib.Data.Nat.Find

/-! Which hand-overs can still end: from every reachable state, the processes can go on so that a process that asks gets
both descriptors and enters its record, unless its connection is stranded. All this is about the runs that hand over nothing
that has only got the number of a closed `comfd`. -/

namespace OpenDSU.RequestState
open Function

/-- The process of connection `c` has entered its record. -/
def Entered (c : Nat) (s : RequestState) : Prop := ∃ x, s.conns c = some x ∧ x.stage = .entered

/-- All messages of an answer are on the connection. -/
def Answered (c : Nat) (s : RequestState) : Prop := ∃ x, s.conns c = some x ∧ x.sent.length = 2

/-- A step towards the end of the hand-overs that are accepted. Who receives a request can answer it in full. -/
def Completes (s : RequestState) : RequestAct → Prop
  | .recv p c => (∃ o, s.hosts p = some o ∧ o.com = some .name) ∨ ∃ x, s.conns c = some x ∧ x.request = false
  | .send _ | .count _ | .writeShadow _ | .writeCom _ | .read _ | .hangUp _ | .inherit _ => True
  | .connect _ | .accept .. | .fork _ | .monitor _ | .setLocked .. | .reuse .. | .exit _ => False

variable {s t : RequestState} {p c d : Nat} {o : Host} {x : Conn}

theorem idle_of_serves {task : Task} (h : task.serves = none) : task = .idle := by
  cases task with
  | idle => rfl
  | taken | counted | half => cases h

theorem genuine_step {a : RequestAct} (hg : s.genuine a = true) (hs : s.step a = some t) :
    genuineMachine.step s a = some t :=
  Machine.guard_step_iff.mpr ⟨hg, hs⟩

theorem reachable_step {a : RequestAct} (hr : genuineMachine.Reachable s) (hs : genuineMachine.step s a = some t) :
    genuineMachine.Reachable t :=
  hr.step a hs

/-- `dsu_write_fd` of a `comfd` whose number nothing else has got. -/
theorem genuine_writeCom (ho : s.hosts p = some o) (hcom : o.com ≠ some .other) : s.genuine (.writeCom p) = true := by
  simpa [genuine, ho] using hcom

/-! ### Steps that are enabled -/

theorem step_send (hx : s.conns c = some x) (hst : x.stage = .connected) :
    s.step (.send c) = some (s.setConn c { x with stage := .waiting, request := true }) := by
  simp [step, hx, hst]

theorem step_accept (ho : s.hosts p = some o) (hx : s.conns c = some x) (hi : o.task = .idle)
    (hm : o.sock.monitoring = true) (hcom : o.com = some .name) (hacc : x.accepted = false) (hold : s.oldest c = true) :
    s.step (.accept p c) =
      some ((s.setHost p { o with comfds := o.comfds ++ [c] }).setConn c { x with accepted := true }) := by
  simp [step, ho, hx, hi, hm, hcom, hacc, hold]

theorem step_recv (ho : s.hosts p = some o) (hx : s.conns c = some x) (hi : o.task = .idle) (hin : c ∈ o.comfds)
    (hr : x.request = true) : s.step (.recv p c) =
      some ((s.setHost p { o with task := .taken c }).setConn c { x with request := false, taker := some p }) := by
  simp [step, ho, hx, hi, hin, hr]

theorem step_count (ho : s.hosts p = some o) (htask : o.task = .taken c) : s.step (.count p) =
    some { s.setHost p { o with sock := (answerSection s.status o.sock).2, task := .counted c } with
      status := (answerSection s.status o.sock).1 } := by
  simp [step, ho, htask]

theorem step_writeShadow (ho : s.hosts p = some o) (htask : o.task = .counted c) (hx : s.conns c = some x) :
    s.step (.writeShadow p) = some ((s.setHost p { o with task := .half c }).setConn c
      { x with sent := x.sent ++ [{ pid := p, fd := o.shadow }] }) := by
  simp [step, ho, htask, hx]

theorem step_writeCom_some {com : Endpoint} (ho : s.hosts p = some o) (htask : o.task = .half c)
    (hx : s.conns c = some x) (hcom : o.com = some com) : s.step (.writeCom p) =
      some ((s.setHost p { o with task := .idle }).setConn c { x with sent := x.sent ++ [{ pid := p, fd := com }] }) := by
  simp [step, ho, htask, hx, hcom]

theorem step_writeCom_none (ho : s.hosts p = some o) (htask : o.task = .half c) (hx : s.conns c = some x)
    (hcom : o.com = none) : s.step (.writeCom p) = some (s.setHost p { o with task := .idle }) := by
  simp [step, ho, htask, hx, hcom]

theorem step_read {m : Parcel} (hx : s.conns c = some x) (hst : x.stage = .waiting) (hlt : x.got.length < 2)
    (hm : x.sent[x.got.length]? = some m) : s.step (.read c) = some (s.setConn c { x with got := x.got ++ [m.fd] }) := by
  simp only [step, hx, hst, hlt, hm, Option.bind_some, Option.map_some, and_self, ↓reduceIte]

theorem step_hangUp (hx : s.conns c = some x) (hst : x.stage = .waiting) (hlen : x.got.length = 2) :
    s.step (.hangUp c) = some (s.setConn c { x with stage := .closed }) := by
  simp [step, hx, hst, hlen]

/-! ### The process that asks -/

/-- What is left of `dsu_inherit_fd` once the answer is on the connection. -/
def Conn.left (x : Conn) : Nat :=
  match x.stage with
  | .connected => 5
  | .waiting => 4 - x.got.length
  | .closed => 1
  | .entered => 0

/-- Who is answered can read both messages, hang up and enter its record. -/
theorem Answered.canEnter (hr : genuineMachine.Reachable s) (h : Answered c s) :
    genuineMachine.Can Completes (Entered c) s := by
  refine Machine.Can.of_measure (R := fun s => genuineMachine.Reachable s ∧ Answered c s)
    (fun s => ((s.conns c).map Conn.left).getD 0) ?_ ⟨hr, h⟩
  rintro s ⟨hr, x, hx, hlen⟩
  have hc := (sound_of_reachable hr.of_guard).1.conns c x hx
  cases hst : x.stage with
  | connected =>
    -- Nobody has received its request.
    rw [hc.untaken (hc.fresh hst).2] at hlen
    cases hlen
  | waiting =>
    have hle : x.got.length ≤ 2 := by
      have := hc.got.length_le
      simpa [hlen] using this
    rcases Nat.lt_or_eq_of_le hle with hlt | hgot
    · obtain ⟨m, hm⟩ : ∃ m, x.sent[x.got.length]? = some m := ⟨_, List.getElem?_eq_getElem (hlen ▸ hlt)⟩
      have hs := genuine_step rfl (step_read hx hst hlt hm)
      refine Or.inr ⟨.read c, _, hs, trivial, ⟨reachable_step hr hs, _, update_self .., hlen⟩, ?_⟩
      simp [hx, Conn.left, hst]
      omega
    · have hs := genuine_step rfl (step_hangUp hx hst hgot)
      refine Or.inr ⟨.hangUp c, _, hs, trivial, ⟨reachable_step hr hs, _, update_self .., hlen⟩, ?_⟩
      simp [hx, Conn.left, hst, hgot]
  | closed =>
    obtain ⟨com, -, hgot, -⟩ := hc.delivered (hc.done (by simp [Conn.IsOpen, hst])).1
    have hs : ∃ t, s.step (.inherit c) = some t ∧ t.conns = update s.conns c (some { x with stage := .entered }) := by
      simp [step, hx, hst, hgot]
    obtain ⟨t, hs, ht⟩ := hs
    have hs := genuine_step rfl hs
    refine Or.inr ⟨.inherit c, t, hs, trivial,
      ⟨reachable_step hr hs, { x with stage := .entered }, by rw [ht]; exact update_self .., hlen⟩, ?_⟩
    simp [ht, hx, Conn.left, hst]
  | entered => exact Or.inl ⟨x, hx, hst⟩

/-! ### The process that answers -/

/-- What the steps of a process at the request of connection `d` leave as it is. -/
structure Works (p d : Nat) (s : RequestState) (o : Host) (t : RequestState) (o' : Host) : Prop where
  host : t.hosts p = some o'
  com : o'.com = o.com
  comfds : o'.comfds = o.comfds
  monitoring : o'.sock.monitoring = o.sock.monitoring
  conns : ∀ c, c ≠ d → t.conns c = s.conns c

theorem Works.trans {u : RequestState} {o' o'' : Host} (h : Works p d s o t o') (h' : Works p d t o' u o'') :
    Works p d s o u o'' where
  host := h'.host
  com := h'.com.trans h.com
  comfds := h'.comfds.trans h.comfds
  monitoring := h'.monitoring.trans h.monitoring
  conns c hc := (h'.conns c hc).trans (h.conns c hc)

/-- The process is through with the request, which it has answered if its `comfd` is open. -/
def Finished (p d : Nat) (s : RequestState) (o : Host) (t : RequestState) : Prop :=
  ∃ o', o'.task = .idle ∧ Works p d s o t o' ∧ (o.com = some .name → Answered d t)

theorem Works.finished {u : RequestState} {o' : Host} (h : Works p d s o t o') (hf : Finished p d t o' u) :
    Finished p d s o u := by
  obtain ⟨o'', hi, hw, hans⟩ := hf
  exact ⟨o'', hi, h.trans hw, fun hcom => hans (h.com ▸ hcom)⟩

theorem finish_half (hr : genuineMachine.Reachable s) (ho : s.hosts p = some o) (hno : o.com ≠ some .other)
    (htask : o.task = .half d) : genuineMachine.Can Completes (Finished p d s o) s := by
  obtain ⟨-, x, hx, -, hsent⟩ := ((sound_of_reachable hr.of_guard).1.hosts p o ho).task d 1 (by rw [htask]; rfl)
  have hg := genuine_writeCom ho hno
  cases hcom : o.com with
  | none =>
    refine .step (.writeCom p) (genuine_step hg (step_writeCom_none ho htask hx hcom)) trivial
      (.here ⟨{ o with task := .idle }, rfl, ?_, ?_⟩)
    · exact { host := update_self .., com := rfl, comfds := rfl, monitoring := rfl, conns := fun _ _ => rfl }
    · intro hname
      rw [hcom] at hname
      cases hname
  | some com =>
    refine .step (.writeCom p) (genuine_step hg (step_writeCom_some ho htask hx hcom)) trivial
      (.here ⟨{ o with task := .idle }, rfl, ?_, ?_⟩)
    · exact {
        host := update_self ..
        com := rfl
        comfds := rfl
        monitoring := rfl
        conns := fun c hc => update_of_ne hc .. }
    · exact fun _ => ⟨_, update_self .., by simp [hsent, shadowOf]⟩

theorem finish_counted (hr : genuineMachine.Reachable s) (ho : s.hosts p = some o) (hno : o.com ≠ some .other)
    (htask : o.task = .counted d) : genuineMachine.Can Completes (Finished p d s o) s := by
  obtain ⟨-, x, hx, -, -⟩ := ((sound_of_reachable hr.of_guard).1.hosts p o ho).task d 0 (by rw [htask]; rfl)
  have hs := genuine_step rfl (step_writeShadow ho htask hx)
  refine .step (.writeShadow p) hs trivial
    ((finish_half (reachable_step hr hs) (update_self ..) hno rfl).mono fun u => Works.finished ?_)
  exact { host := update_self .., com := rfl, comfds := rfl, monitoring := rfl, conns := fun c hc => update_of_ne hc .. }

/-- A process that has received a request can go on until it is at none. -/
theorem can_finish {n : Nat} (hr : genuineMachine.Reachable s) (ho : s.hosts p = some o) (hno : o.com ≠ some .other)
    (hserves : o.task.serves = some (d, n)) : genuineMachine.Can Completes (Finished p d s o) s := by
  cases htask : o.task with
  | idle =>
    rw [htask] at hserves
    cases hserves
  | taken c =>
    rw [htask] at hserves
    cases hserves
    have hs := genuine_step rfl (step_count ho htask)
    refine .step (.count p) hs trivial
      ((finish_counted (reachable_step hr hs) (update_self ..) hno rfl).mono fun u => Works.finished ?_)
    exact {
      host := update_self ..
      com := rfl
      comfds := rfl
      monitoring := answerSection_monitoring ..
      conns := fun _ _ => rfl }
  | counted c =>
    rw [htask] at hserves
    cases hserves
    exact finish_counted hr ho hno htask
  | half c =>
    rw [htask] at hserves
    cases hserves
    exact finish_half hr ho hno htask

theorem ne_other_of_name (hcom : o.com = some .name) : o.com ≠ some .other := by simp [hcom]

/-- Where it is the request of the connection, and it listens on the abstract name, the connection gets its answer. -/
theorem canEnter_of_serves {n : Nat} (hr : genuineMachine.Reachable s) (ho : s.hosts p = some o)
    (hcom : o.com = some .name) (hserves : o.task.serves = some (c, n)) : genuineMachine.Can Completes (Entered c) s :=
  (can_finish hr ho (ne_other_of_name hcom) hserves).bind (fun _ _ _ hr _ => reachable_step hr) hr fun _ ht hf => by
    obtain ⟨o', -, -, hans⟩ := hf
    exact (hans hcom).canEnter ht

/-- A process at no request that holds a connection whose request nobody has received. -/
theorem canEnter_of_holds (hr : genuineMachine.Reachable s) (ho : s.hosts p = some o) (hi : o.task = .idle)
    (hcom : o.com = some .name) (hin : c ∈ o.comfds) (hx : s.conns c = some x) (htk : x.taker = none) :
    genuineMachine.Can Completes (Entered c) s := by
  have hc := (sound_of_reachable hr.of_guard).1.conns c x hx
  have hopen : x.IsOpen := hc.isOpen_of_sent (by simp [hc.untaken htk])
  have waiting : ∀ {s : RequestState} {x : Conn}, genuineMachine.Reachable s → s.hosts p = some o → s.conns c = some x →
      x.request = true → genuineMachine.Can Completes (Entered c) s := fun hr ho hx hreq => by
    have hs := genuine_step rfl (step_recv ho hx hi hin hreq)
    exact .step (.recv p c) hs (Or.inl ⟨o, ho, hcom⟩) (canEnter_of_serves (reachable_step hr hs) (update_self ..) hcom rfl)
  rcases hopen with hst | hst
  · have hs := genuine_step rfl (step_send hx hst)
    exact .step (.send c) hs trivial (waiting (reachable_step hr hs) ho (update_self ..) rfl)
  · exact waiting hr ho hx ((hc.asked hst).mpr htk)

/-- Who serves another connection is through with it first. -/
theorem canEnter_of_untaken (hr : genuineMachine.Reachable s) (hx : s.conns c = some x) (htk : x.taker = none)
    (ho : s.hosts p = some o) (hcom : o.com = some .name) (hin : c ∈ o.comfds) :
    genuineMachine.Can Completes (Entered c) s := by
  cases hs : o.task.serves with
  | none => exact canEnter_of_holds hr ho (idle_of_serves hs) hcom hin hx htk
  | some dn =>
    obtain ⟨d, n⟩ := dn
    have hcd : c ≠ d := by
      rintro rfl
      obtain ⟨-, htk', -⟩ := (sound_of_reachable hr.of_guard).1.taker_of_serves ho hx hs
      rw [htk] at htk'
      cases htk'
    refine (can_finish hr ho (ne_other_of_name hcom) hs).bind (fun _ _ _ hr _ => reachable_step hr) hr fun t ht hf => ?_
    obtain ⟨o', hi, hw, -⟩ := hf
    exact canEnter_of_holds ht hw.host hi (by rwa [hw.com]) (by rwa [hw.comfds]) ((hw.conns c hcd).trans hx) htk

/-! ### The backlog -/

/-- A process that listens on the abstract name and is at no request. -/
structure Listens (p : Nat) (s : RequestState) (o : Host) : Prop where
  host : s.hosts p = some o
  idle : o.task = .idle
  monitoring : o.sock.monitoring = true
  com : o.com = some .name

/-- The connections up to `c` that wait in the backlog. -/
def backlog (s : RequestState) (c : Nat) : List Nat :=
  (List.range (c + 1)).filter fun d => (s.conns d).any (!·.accepted)

theorem mem_backlog : d ∈ s.backlog c ↔ d ≤ c ∧ ∃ x, s.conns d = some x ∧ x.accepted = false := by
  simp only [backlog, List.mem_filter, List.mem_range, Nat.lt_succ_iff, Option.any_eq_true, Bool.not_eq_true']

/-- Of the connections in the backlog, one is the oldest of all. -/
theorem oldest_of_backlog (h : c ∈ s.backlog c) : ∃ d ∈ s.backlog c, s.oldest d = true := by
  have hex : ∃ d, d ∈ s.backlog c := ⟨c, h⟩
  obtain ⟨d, hd, hleast⟩ : ∃ d ∈ s.backlog c, ∀ e ∈ s.backlog c, d ≤ e :=
    ⟨Nat.find hex, Nat.find_spec hex, fun e he => Nat.find_min' hex he⟩
  refine ⟨d, hd, List.all_eq_true.mpr fun e he => ?_⟩
  rw [List.mem_range] at he
  cases hy : s.conns e with
  | none => rfl
  | some y =>
    cases hacc : y.accepted with
    | true => simp [hacc]
    | false =>
      have hle := (mem_backlog.mp hd).1
      have := hleast e (mem_backlog.mpr ⟨by omega, y, hy, hacc⟩)
      omega

/-- A connection that is accepted leaves the backlog. -/
theorem backlog_accept (hd : d ∈ s.backlog c) (ht : t.conns = update s.conns d (some x)) (hacc : x.accepted = true) :
    (t.backlog c).length < (s.backlog c).length := by
  have hfilter : t.backlog c = (s.backlog c).filter (· ≠ d) := by
    unfold backlog
    rw [List.filter_filter]
    refine List.filter_congr fun e _ => ?_
    by_cases he : e = d
    · subst he
      simp [ht, hacc]
    · simp [ht, he]
  rw [hfilter]
  exact List.length_filter_lt_length_iff_exists.mpr ⟨d, hd, by simp⟩

/-- Some process can be at no request and listen. -/
theorem can_listen (hr : genuineMachine.Reachable s) (hx : s.conns c = some x) (hacc : x.accepted = false) :
    genuineMachine.Can Completes (fun t => (∃ p o, Listens p t o) ∧ t.conns c = some x) s := by
  obtain ⟨b, -, hat, -⟩ := at_of_reachable hr
  obtain ⟨hsound, -⟩ := sound_of_reachable hr.of_guard
  obtain ⟨p, o, ho, hm, -, hcom⟩ := hat.listener
  cases hs : o.task.serves with
  | none => exact .here ⟨⟨p, o, ho, idle_of_serves hs, hm, hcom⟩, hx⟩
  | some dn =>
    obtain ⟨d, n⟩ := dn
    -- What it serves is accepted.
    have hcd : c ≠ d := by
      rintro rfl
      obtain ⟨-, htk, -⟩ := hsound.taker_of_serves ho hx hs
      rw [((hsound.conns c x hx).taken p htk).1] at hacc
      cases hacc
    refine (can_finish hr ho (ne_other_of_name hcom) hs).mono fun t hf => ?_
    obtain ⟨o', hi, hw, -⟩ := hf
    exact ⟨⟨p, o', hw.host, hi, hw.monitoring.trans hm, hw.com.trans hcom⟩, (hw.conns c hcd).trans hx⟩

/-- A process that listens accepts the connections of the backlog in their order, until it holds connection `c`. -/
theorem can_accept (hr : genuineMachine.Reachable s) (hl : Listens p s o) (hx : s.conns c = some x)
    (hacc : x.accepted = false) :
    genuineMachine.Can (fun _ _ => True)
      (fun t => ∃ o', Listens p t o' ∧ c ∈ o'.comfds ∧ t.conns c = some { x with accepted := true }) s := by
  refine .of_measure (R := fun s => genuineMachine.Reachable s ∧ ∃ o, Listens p s o ∧
    (s.conns c = some x ∨ c ∈ o.comfds ∧ s.conns c = some { x with accepted := true }))
    (fun s => (s.backlog c).length) ?_ ⟨hr, o, hl, Or.inl hx⟩
  rintro s ⟨hr, o, hl, hx | ⟨hin, hx⟩⟩
  · obtain ⟨d, hd, hold⟩ := oldest_of_backlog (mem_backlog.mpr ⟨Nat.le_refl c, x, hx, hacc⟩)
    obtain ⟨-, y, hy, hyacc⟩ := mem_backlog.mp hd
    have hs := genuine_step rfl (step_accept hl.host hy hl.idle hl.monitoring hl.com hyacc hold)
    refine Or.inr ⟨.accept p d, _, hs, trivial, ⟨reachable_step hr hs, { o with comfds := o.comfds ++ [d] }, ?_, ?_⟩,
      backlog_accept hd rfl rfl⟩
    · exact { host := update_self .., idle := hl.idle, monitoring := hl.monitoring, com := hl.com }
    · by_cases hcd : c = d
      · subst hcd
        obtain rfl : x = y := Option.some.inj (hx.symm.trans hy)
        exact Or.inr ⟨by simp, update_self ..⟩
      · exact Or.inl ((update_of_ne hcd ..).trans hx)
  · exact Or.inl ⟨o, hl, hin, hx⟩

theorem canEnter_of_backlog (hr : genuineMachine.Reachable s) (hx : s.conns c = some x) (hacc : x.accepted = false) :
    genuineMachine.Can (fun _ _ => True) (Entered c) s := by
  refine ((can_listen hr hx hacc).weaken fun _ _ _ => trivial).bind (fun _ _ _ hr _ => reachable_step hr) hr
    fun t ht ⟨⟨p, o, hl⟩, hxt⟩ => ?_
  refine (can_accept ht hl hxt hacc).bind (fun _ _ _ hr _ => reachable_step hr) ht fun u hu ⟨o', hl', hin, hx'⟩ => ?_
  refine (canEnter_of_holds hu hl'.host hl'.idle hl'.com hin hx' ?_).weaken fun _ _ _ => trivial
  -- Nobody receives a request before its connection is accepted.
  cases htk : x.taker with
  | none => rfl
  | some q =>
    rw [(((sound_of_reachable hr.of_guard).1.conns c x hx).taken q htk).1] at hacc
    cases hacc

/-! ### The hand-overs that can end -/

/-- Who is sent the socket of the abstract name has a whole answer. -/
theorem answered_of_whole (h : x.Whole) (hsound : s.Sound) (hx : s.conns c = some x) : Answered c s := by
  obtain ⟨m, hm, hfd⟩ := h
  have hc := hsound.conns c x hx
  cases htk : x.taker with
  | none =>
    rw [hc.untaken htk] at hm
    cases hm
  | some p =>
    obtain ⟨-, com, -, hpre⟩ := hc.taken p htk
    rcases List.prefix_concat_iff.mp hpre with hfull | hfirst
    · exact ⟨x, hx, by rw [hfull]; rfl⟩
    · -- The first message is the listening socket.
      rw [List.mem_singleton.mp (hfirst.subset hm)] at hfd
      cases hfd

/-- A connection that is accepted and not stranded needs none to stop monitoring, and no other connection. -/
theorem canEnter_of_accepted (hr : genuineMachine.Reachable s) (hx : s.conns c = some x) (hacc : x.accepted = true)
    (hno : ¬s.Stranded c) : genuineMachine.Can Completes (Entered c) s := by
  rcases (answerable_iff hx).mpr hno with hacc' | hwhole | ⟨p, o, ho, hin, hcom, hmay⟩
  · rw [hacc] at hacc'
    cases hacc'
  · exact (answered_of_whole hwhole (sound_of_reachable hr.of_guard).1 hx).canEnter hr
  · rcases hmay with htk | ⟨n, hserves⟩
    · exact canEnter_of_untaken hr hx htk ho hcom hin
    · exact canEnter_of_serves hr ho hcom hserves

/-- From a reachable state the processes can go on so that a process that asks enters its record with both descriptors if
    and only if its connection is not stranded. -/
theorem enters_iff (hr : genuineMachine.Reachable s) (hx : s.conns c = some x) :
    (∃ as t y, genuineMachine.run s as = some t ∧ t.conns c = some y ∧ y.stage = .entered ∧
      y.got = [.listener 0, .name]) ↔ ¬s.Stranded c := by
  constructor
  · rintro ⟨as, t, y, hrun, hy, -, hgot⟩ hstranded
    obtain ⟨hsound, ⟨z, hz, -, hwhole, -⟩, -⟩ := run_stranded hr.of_guard hstranded (Machine.run_guard_iff.mp hrun).1
    obtain rfl : z = y := Option.some.inj (hz.symm.trans hy)
    -- What it has read was sent.
    have hname : Endpoint.name ∈ z.sent.map (·.fd) := (hsound.conns c z hz).got.subset (by simp [hgot])
    obtain ⟨m, hm, hfd⟩ := List.mem_map.mp hname
    exact hwhole ⟨m, hm, hfd⟩
  · intro hno
    have hcan : genuineMachine.Can (fun _ _ => True) (Entered c) s := by
      cases hacc : x.accepted with
      | false => exact canEnter_of_backlog hr hx hacc
      | true => exact (canEnter_of_accepted hr hx hacc hno).weaken fun _ _ _ => trivial
    obtain ⟨as, t, hrun, -, y, hy, hst⟩ := hcan
    have ht := hr.of_run as hrun
    have hc := (sound_of_reachable ht.of_guard).1.conns c y hy
    have hgot := (unstrayed_of_reachable ht).delivered hc hy (hc.done (by simp [Conn.IsOpen, hst])).1
    exact ⟨as, t, y, hrun, hy, hst, hgot.1⟩

theorem enters_iff_supersede : ∃ s x, genuineMachine.Reachable s ∧ s.conns 2 = some x ∧ s.Stranded 2 ∧
    ((∃ as t y, genuineMachine.run s as = some t ∧ t.conns 2 = some y ∧ y.stage = .entered ∧
      y.got = [.listener 0, .name]) ↔ ¬s.Stranded 2) := by
  obtain ⟨s, -, hr, hstranded, -⟩ := stranded_supersede
  have ⟨x, hx, _⟩ := hstranded
  exact ⟨s, x, hr, hx, hstranded, enters_iff hr hx⟩

end OpenDSU.RequestState
