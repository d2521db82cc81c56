import OpenDSU.Requests

/-! What each step of the requests for the descriptors of a port does, read off `RequestState.step` once. -/

namespace OpenDSU.RequestState
open Function

variable {s t : RequestState} {p c : Nat}

@[simp] theorem setHost_hosts (p : Nat) (h : Host) : (s.setHost p h).hosts = update s.hosts p (some h) := rfl
@[simp] theorem setHost_conns (p : Nat) (h : Host) : (s.setHost p h).conns = s.conns := rfl
@[simp] theorem setHost_status (p : Nat) (h : Host) : (s.setHost p h).status = s.status := rfl
@[simp] theorem setHost_port (p : Nat) (h : Host) : (s.setHost p h).port = s.port := rfl
@[simp] theorem setHost_pids (p : Nat) (h : Host) : (s.setHost p h).pids = s.pids := rfl
@[simp] theorem setConn_hosts (c : Nat) (x : Conn) : (s.setConn c x).hosts = s.hosts := rfl
@[simp] theorem setConn_conns (c : Nat) (x : Conn) : (s.setConn c x).conns = update s.conns c (some x) := rfl
@[simp] theorem setConn_status (c : Nat) (x : Conn) : (s.setConn c x).status = s.status := rfl
@[simp] theorem setConn_port (c : Nat) (x : Conn) : (s.setConn c x).port = s.port := rfl
@[simp] theorem setConn_pids (c : Nat) (x : Conn) : (s.setConn c x).pids = s.pids := rfl

/-! ### Inversion -/

theorem connect_inv {pgid : Int} (h : s.step (.connect pgid) = some t) :
    s.nameHeld = true ∧ t = { s.setConn s.pids (.new pgid) with pids := s.pids + 1 } := by
  simp only [step] at h
  split at h
  · rename_i hn
    exact ⟨hn, (Option.some.inj h).symm⟩
  · cases h

theorem send_inv (h : s.step (.send c) = some t) : ∃ x, s.conns c = some x ∧ x.stage = .connected ∧
    t = s.setConn c { x with stage := .waiting, request := true } := by
  simp only [step, Option.bind_eq_some_iff] at h
  obtain ⟨x, hx, h⟩ := h
  split at h
  · rename_i hs
    exact ⟨x, hx, hs, (Option.some.inj h).symm⟩
  · cases h

theorem accept_inv (h : s.step (.accept p c) = some t) : ∃ o x, s.hosts p = some o ∧ s.conns c = some x ∧
    o.task = .idle ∧ o.sock.monitoring = true ∧ o.com = some .name ∧ x.accepted = false ∧ s.oldest c = true ∧
    t = (s.setHost p { o with comfds := o.comfds ++ [c] }).setConn c { x with accepted := true } := by
  simp only [step, Option.bind_eq_some_iff] at h
  obtain ⟨o, ho, x, hx, h⟩ := h
  split at h
  · rename_i hg
    obtain ⟨hi, hm, hc, ha, hold⟩ := hg
    exact ⟨o, x, ho, hx, hi, hm, hc, by simpa using ha, hold, (Option.some.inj h).symm⟩
  · cases h

theorem recv_inv (h : s.step (.recv p c) = some t) : ∃ o x, s.hosts p = some o ∧ s.conns c = some x ∧
    o.task = .idle ∧ c ∈ o.comfds ∧
    (x.request = true ∧
        t = (s.setHost p { o with task := .taken c }).setConn c { x with request := false, taker := some p } ∨
      x.request = false ∧ (x.stage = .closed ∨ x.stage = .entered) ∧
        t = s.setHost p { o with comfds := o.comfds.erase c }) := by
  simp only [step, Option.bind_eq_some_iff] at h
  obtain ⟨o, ho, x, hx, h⟩ := h
  split at h
  · rename_i hg
    refine ⟨o, x, ho, hx, hg.1, hg.2, ?_⟩
    split at h
    · rename_i hr
      exact Or.inl ⟨hr, (Option.some.inj h).symm⟩
    · rename_i hr
      split at h
      · rename_i hcl
        exact Or.inr ⟨by simpa using hr, hcl, (Option.some.inj h).symm⟩
      · cases h
  · cases h

theorem count_inv (h : s.step (.count p) = some t) : ∃ o c, s.hosts p = some o ∧ o.task = .taken c ∧
    t = { s.setHost p { o with sock := (answerSection s.status o.sock).2, task := .counted c } with
      status := (answerSection s.status o.sock).1 } := by
  simp only [step, Option.bind_eq_some_iff] at h
  obtain ⟨o, ho, h⟩ := h
  split at h
  · rename_i c hc
    exact ⟨o, c, ho, hc, (Option.some.inj h).symm⟩
  · cases h

theorem writeShadow_inv (h : s.step (.writeShadow p) = some t) : ∃ o c x, s.hosts p = some o ∧ o.task = .counted c ∧
    s.conns c = some x ∧
    t = (s.setHost p { o with task := .half c }).setConn c
      { x with sent := x.sent ++ [{ pid := p, fd := o.shadow }] } := by
  simp only [step, Option.bind_eq_some_iff] at h
  obtain ⟨o, ho, h⟩ := h
  split at h
  · rename_i c hc
    simp only [Option.map_eq_some_iff] at h
    obtain ⟨x, hx, h⟩ := h
    exact ⟨o, c, x, ho, hc, hx, h.symm⟩
  · cases h

theorem writeCom_inv (h : s.step (.writeCom p) = some t) : ∃ o c x, s.hosts p = some o ∧ o.task = .half c ∧
    s.conns c = some x ∧
    ((∃ com, o.com = some com ∧
        t = (s.setHost p { o with task := .idle }).setConn c
          { x with sent := x.sent ++ [{ pid := p, fd := com }] }) ∨
      o.com = none ∧ t = s.setHost p { o with task := .idle }) := by
  simp only [step, Option.bind_eq_some_iff] at h
  obtain ⟨o, ho, h⟩ := h
  split at h
  · rename_i c hc
    simp only [Option.map_eq_some_iff] at h
    obtain ⟨x, hx, h⟩ := h
    refine ⟨o, c, x, ho, hc, hx, ?_⟩
    split at h
    · rename_i com hcom
      exact Or.inl ⟨com, hcom, h.symm⟩
    · rename_i hcom
      exact Or.inr ⟨hcom, h.symm⟩
  · cases h

theorem read_inv (h : s.step (.read c) = some t) : ∃ x m, s.conns c = some x ∧ x.stage = .waiting ∧
    x.got.length < 2 ∧ x.sent[x.got.length]? = some m ∧ t = s.setConn c { x with got := x.got ++ [m.fd] } := by
  simp only [step, Option.bind_eq_some_iff] at h
  obtain ⟨x, hx, h⟩ := h
  split at h
  · rename_i hg
    simp only [Option.map_eq_some_iff] at h
    obtain ⟨m, hm, h⟩ := h
    exact ⟨x, m, hx, hg.1, hg.2, hm, h.symm⟩
  · cases h

theorem hangUp_inv (h : s.step (.hangUp c) = some t) : ∃ x, s.conns c = some x ∧ x.stage = .waiting ∧
    x.got.length = 2 ∧ t = s.setConn c { x with stage := .closed } := by
  simp only [step, Option.bind_eq_some_iff] at h
  obtain ⟨x, hx, h⟩ := h
  split at h
  · rename_i hg
    exact ⟨x, hx, hg.1, hg.2, (Option.some.inj h).symm⟩
  · cases h

theorem inherit_inv (h : s.step (.inherit c) = some t) : ∃ x shadow com, s.conns c = some x ∧ x.stage = .closed ∧
    x.got = [shadow, com] ∧
    t = (s.setConn c { x with stage := .entered }).setHost c {
      pgid := x.pgid
      sock := bindInheritSection x.pgid s.status { dsuSocketListInit with port := s.port }
      shadow := shadow
      com := some com
      comfds := []
      task := .idle } := by
  simp only [step, Option.bind_eq_some_iff] at h
  obtain ⟨x, hx, h⟩ := h
  split at h
  · rename_i shadow com hst hgot
    exact ⟨x, shadow, com, hx, hst, hgot, (Option.some.inj h).symm⟩
  · cases h

theorem fork_inv (h : s.step (.fork p) = some t) : ∃ o, s.hosts p = some o ∧ o.task = .idle ∧
    t = { s.setHost s.pids o with pids := s.pids + 1 } := by
  simp only [step, Option.bind_eq_some_iff] at h
  obtain ⟨o, ho, h⟩ := h
  split at h
  · rename_i hi
    exact ⟨o, ho, hi, (Option.some.inj h).symm⟩
  · cases h

theorem monitor_inv (h : s.step (.monitor p) = some t) : ∃ o, s.hosts p = some o ∧ o.task = .idle ∧
    t = { s.setHost p { o with
        sock := (monitorSection o.pgid s.status o.sock).2
        com := if o.sock.quits s.status then none else o.com } with
      status := (monitorSection o.pgid s.status o.sock).1 } := by
  simp only [step, Option.bind_eq_some_iff] at h
  obtain ⟨o, ho, h⟩ := h
  split at h
  · rename_i hi
    exact ⟨o, ho, hi, (Option.some.inj h).symm⟩
  · cases h

theorem setLocked_inv {locked : Bool} (h : s.step (.setLocked p locked) = some t) : ∃ o, s.hosts p = some o ∧
    o.task = .idle ∧ t = s.setHost p { o with sock := { o.sock with locked := locked } } := by
  simp only [step, Option.bind_eq_some_iff] at h
  obtain ⟨o, ho, h⟩ := h
  split at h
  · rename_i hi
    exact ⟨o, ho, hi, (Option.some.inj h).symm⟩
  · cases h

theorem reuse_inv {opened : Bool} (h : s.step (.reuse p opened) = some t) : ∃ o, s.hosts p = some o ∧
    o.task = .idle ∧ o.sock.monitoring = false ∧ o.com = (if opened then none else some .other) ∧
    t = s.setHost p { o with com := if opened then some .other else none } := by
  simp only [step, Option.bind_eq_some_iff] at h
  obtain ⟨o, ho, h⟩ := h
  by_cases hg : o.task = .idle ∧ !o.sock.monitoring ∧ o.com = (if opened then none else some .other)
  · rw [if_pos hg] at h
    obtain ⟨hi, hm, hc⟩ := hg
    exact ⟨o, ho, hi, by simpa using hm, hc, (Option.some.inj h).symm⟩
  · rw [if_neg hg] at h
    cases h

theorem exit_inv (h : s.step (.exit p) = some t) : ∃ o, s.hosts p = some o ∧ o.task = .idle ∧
    o.sock.version < s.status.version ∧ o.sock.monitoring = false ∧ o.comfds = [] ∧
    t = { s with hosts := update s.hosts p none } := by
  simp only [step, Option.bind_eq_some_iff] at h
  obtain ⟨o, ho, h⟩ := h
  split at h
  · rename_i hg
    obtain ⟨hi, hv, hm, hc⟩ := hg
    exact ⟨o, ho, hi, hv, by simpa using hm, hc, (Option.some.inj h).symm⟩
  · cases h

/-! ### Messages -/

/-- What a step does to the connections: it makes one, or stores one, or sends on it the message of a handler that answers
    it. -/
inductive ConnsMove (s : RequestState) (a : RequestAct) (t : RequestState) : Prop
  | same (ht : t.conns = s.conns)
  | made {pgid : Int} (ht : t.conns = update s.conns s.pids (some (.new pgid)))
  | stored {d : Nat} {x x' : Conn} (hx : s.conns d = some x) (ht : t.conns = update s.conns d (some x'))
      (hsent : x'.sent = x.sent)
  | sent {d p : Nat} {o : Host} {x : Conn} {fd : Endpoint} (ho : s.hosts p = some o) (hx : s.conns d = some x)
      (ht : t.conns = update s.conns d (some { x with sent := x.sent ++ [{ pid := p, fd := fd }] }))
      (hby : a = .writeShadow p ∧ o.task = .counted d ∧ fd = o.shadow ∨
        a = .writeCom p ∧ o.task = .half d ∧ o.com = some fd)

theorem step_conns {a : RequestAct} (hs : s.step a = some t) : ConnsMove s a t := by
  cases a with
  | connect pgid =>
    obtain ⟨-, rfl⟩ := connect_inv hs
    exact .made rfl
  | send c =>
    obtain ⟨x, hx, -, rfl⟩ := send_inv hs
    exact .stored hx rfl rfl
  | accept p c =>
    obtain ⟨o, x, -, hx, -, -, -, -, -, rfl⟩ := accept_inv hs
    exact .stored hx rfl rfl
  | recv p c =>
    obtain ⟨o, x, -, hx, -, -, ⟨-, rfl⟩ | ⟨-, -, rfl⟩⟩ := recv_inv hs
    · exact .stored hx rfl rfl
    · exact .same rfl
  | count p =>
    obtain ⟨o, c, -, -, rfl⟩ := count_inv hs
    exact .same rfl
  | writeShadow p =>
    obtain ⟨o, c, x, ho, htask, hx, rfl⟩ := writeShadow_inv hs
    exact .sent ho hx rfl (Or.inl ⟨rfl, htask, rfl⟩)
  | writeCom p =>
    obtain ⟨o, c, x, ho, htask, hx, ⟨com, hcom, rfl⟩ | ⟨-, rfl⟩⟩ := writeCom_inv hs
    · exact .sent ho hx rfl (Or.inr ⟨rfl, htask, hcom⟩)
    · exact .same rfl
  | read c =>
    obtain ⟨x, m, hx, -, -, -, rfl⟩ := read_inv hs
    exact .stored hx rfl rfl
  | hangUp c =>
    obtain ⟨x, hx, -, -, rfl⟩ := hangUp_inv hs
    exact .stored hx rfl rfl
  | inherit c =>
    obtain ⟨x, shadow, com, hx, -, -, rfl⟩ := inherit_inv hs
    exact .stored hx rfl rfl
  | fork p =>
    obtain ⟨o, -, -, rfl⟩ := fork_inv hs
    exact .same rfl
  | monitor p =>
    obtain ⟨o, -, -, rfl⟩ := monitor_inv hs
    exact .same rfl
  | setLocked p locked =>
    obtain ⟨o, -, -, rfl⟩ := setLocked_inv hs
    exact .same rfl
  | reuse p opened =>
    obtain ⟨o, -, -, -, -, rfl⟩ := reuse_inv hs
    exact .same rfl
  | exit p =>
    obtain ⟨o, -, -, -, -, -, rfl⟩ := exit_inv hs
    exact .same rfl

end OpenDSU.RequestState
