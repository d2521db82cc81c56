import OpenDSU.Theorems.RequestStep
import OpenDSU.Lib.Keyed

/-! What a process that asks is given: whatever the others do between the system calls of a handler, the messages on a
connection come from the one process that received its request, first the listening socket, then the socket of the
abstract name or what has got the number of a closed `comfd`. -/

namespace OpenDSU

/-- What the number of a `comfd` can refer to. -/
def Endpoint.IsCom (e : Endpoint) : Prop := e = .name ∨ e = .other

/-- The first message of process `p`. -/
def shadowOf (p : Nat) : List Parcel := [{ pid := p, fd := .listener 0 }]

/-- A full answer of process `p`, whose `comfd` refers to `com`. -/
def answerOf (p : Nat) (com : Endpoint) : List Parcel := shadowOf p ++ [{ pid := p, fd := com }]

/-- The connection that a handler has taken a request from, and how many messages of the answer are sent. -/
def Task.serves : Task → Option (Nat × Nat)
  | .idle => none
  | .taken c => some (c, 0)
  | .counted c => some (c, 0)
  | .half c => some (c, 1)

/-- The process that asks has not closed the connection. -/
def Conn.IsOpen (x : Conn) : Prop := x.stage = .connected ∨ x.stage = .waiting

namespace RequestState
open Function

/-- What holds of a process with a record of the port. -/
structure HostSound (s : RequestState) (p : Nat) (o : Host) : Prop where
  started : p < s.pids
  shadow : o.shadow = .listener 0
  com : ∀ com ∈ o.com, com.IsCom
  /-- It closes `comfd` when it stops monitoring, and only then. -/
  closed : o.sock.monitoring = false → o.com ≠ some .name
  opened : o.sock.monitoring = true → o.com ≠ none
  comfds : ∀ c ∈ o.comfds, ∃ x, s.conns c = some x ∧ x.accepted = true
  task : ∀ c n, o.task.serves = some (c, n) →
    c ∈ o.comfds ∧ ∃ x, s.conns c = some x ∧ x.taker = some p ∧ x.sent = (shadowOf p).take n
  /-- It is counted in `status[DSU_TRANSFER]` before it sends a descriptor. -/
  counted : ∀ c x, s.conns c = some x → x.taker = some p → x.sent ≠ [] ∨ o.task = .counted c →
    o.sock.transfer = true ∨ o.sock.monitoring = false

/-- What holds of a connection. -/
structure ConnSound (s : RequestState) (c : Nat) (x : Conn) : Prop where
  started : c < s.pids
  fresh : x.stage = .connected → x.request = false ∧ x.taker = none
  asked : x.stage = .waiting → (x.request = true ↔ x.taker = none)
  done : ¬x.IsOpen → x.got.length = 2 ∧ x.request = false
  got : x.got <+: x.sent.map (·.fd)
  untaken : x.taker = none → x.sent = []
  taken : ∀ p, x.taker = some p → x.accepted = true ∧ ∃ com : Endpoint, com.IsCom ∧ x.sent <+: answerOf p com
  /-- A connection that is accepted and open is held by a process. -/
  held : x.accepted = true → x.IsOpen → ∃ p o, s.hosts p = some o ∧ c ∈ o.comfds
  alone : x.stage ≠ .entered → s.hosts c = none

structure Sound (s : RequestState) : Prop where
  hosts : ∀ p o, s.hosts p = some o → s.HostSound p o
  conns : ∀ c x, s.conns c = some x → s.ConnSound c x

/-- Who has received a request is not in `bind` any more. -/
def TakersEntered (s : RequestState) : Prop :=
  ∀ c x p, s.conns c = some x → x.taker = some p → p < s.pids ∧ ∀ y, s.conns p = some y → y.stage = .entered

variable {s t : RequestState} {p c : Nat} {o : Host} {x : Conn}

theorem Sound.fresh_host (h : s.Sound) (hp : s.pids ≤ p) : s.hosts p = none := by
  cases ho : s.hosts p with
  | none => rfl
  | some o =>
    have := (h.hosts p o ho).started
    omega

theorem Sound.fresh_conn (h : s.Sound) (hc : s.pids ≤ c) : s.conns c = none := by
  cases hx : s.conns c with
  | none => rfl
  | some x =>
    have := (h.conns c x hx).started
    omega

/-- One process serves a request. -/
theorem Sound.task_unique (h : s.Sound) {p' n n' : Nat} {o' : Host} (ho : s.hosts p = some o)
    (ho' : s.hosts p' = some o') (ht : o.task.serves = some (c, n)) (ht' : o'.task.serves = some (c, n')) : p = p' := by
  obtain ⟨-, x, hx, htk, -⟩ := (h.hosts p o ho).task c n ht
  obtain ⟨-, x', hx', htk', -⟩ := (h.hosts p' o' ho').task c n' ht'
  obtain rfl : x = x' := Option.some.inj (hx.symm.trans hx')
  exact Option.some.inj (htk.symm.trans htk')

/-! ### Frames -/

/-- What others than process `q` have done to the connections. -/
structure Spares (q : Nat) (s t : RequestState) : Prop where
  keep : ∀ c x, s.conns c = some x → ∃ y, t.conns c = some y ∧ (x.accepted = true → y.accepted = true) ∧
    (x.taker = some q → y.taker = some q ∧ y.sent = x.sent)
  back : ∀ c y, t.conns c = some y → y.taker = some q →
    ∃ x, s.conns c = some x ∧ x.taker = some q ∧ x.sent = y.sent

/-- A process is not concerned by what others do to connections whose request it has not received. -/
theorem HostSound.frame (h : s.HostSound p o) (hspare : Spares p s t) (hpids : s.pids ≤ t.pids) : t.HostSound p o where
  started := Nat.lt_of_lt_of_le h.started hpids
  shadow := h.shadow
  com := h.com
  closed := h.closed
  opened := h.opened
  comfds c hc := by
    obtain ⟨x, hx, ha⟩ := h.comfds c hc
    obtain ⟨y, hy, hacc, -⟩ := hspare.keep c x hx
    exact ⟨y, hy, hacc ha⟩
  task c n ht := by
    obtain ⟨hc, x, hx, htk, hsent⟩ := h.task c n ht
    obtain ⟨y, hy, -, hmine⟩ := hspare.keep c x hx
    obtain ⟨htk', hsent'⟩ := hmine htk
    exact ⟨hc, y, hy, htk', hsent'.trans hsent⟩
  counted c y hy htk hor := by
    obtain ⟨x, hx, htk', hsent⟩ := hspare.back c y hy htk
    exact h.counted c x hx htk' (by rw [hsent]; exact hor)

/-- A connection is not concerned by what becomes of the processes, as long as they hold it. -/
theorem ConnSound.frame (h : s.ConnSound c x) (hpids : s.pids ≤ t.pids)
    (hheld : x.IsOpen → ∀ p o, s.hosts p = some o → c ∈ o.comfds → ∃ p o, t.hosts p = some o ∧ c ∈ o.comfds)
    (halone : x.stage ≠ .entered → s.hosts c = none → t.hosts c = none) : t.ConnSound c x where
  started := Nat.lt_of_lt_of_le h.started hpids
  fresh := h.fresh
  asked := h.asked
  done := h.done
  got := h.got
  untaken := h.untaken
  taken := h.taken
  held ha hopen := by
    obtain ⟨p, o, ho, hc⟩ := h.held ha hopen
    exact hheld hopen p o ho hc
  alone hne := halone hne (h.alone hne)

theorem spares_same {q : Nat} (h : t.conns = s.conns) : Spares q s t where
  keep c x hx := ⟨x, by rw [h]; exact hx, id, fun ht => ⟨ht, rfl⟩⟩
  back c y hy ht := ⟨y, h ▸ hy, ht, rfl⟩

/-- One connection is stored. -/
theorem spares_update {q : Nat} {x' : Conn} (hx : s.conns c = some x) (h : t.conns = update s.conns c (some x'))
    (hacc : x.accepted = true → x'.accepted = true) (htk : x'.taker = some q ↔ x.taker = some q)
    (hsent : x.taker = some q → x'.sent = x.sent) : Spares q s t where
  keep d y hy := by
    rw [h]
    by_cases hd : d = c
    · subst hd
      obtain rfl : x = y := Option.some.inj (hx.symm.trans hy)
      exact ⟨x', update_self .., hacc, fun ht => ⟨htk.mpr ht, hsent ht⟩⟩
    · exact ⟨y, (update_of_ne hd ..).trans hy, id, fun ht => ⟨ht, rfl⟩⟩
  back d y hy ht := by
    rw [h] at hy
    rcases update_eq_some.mp hy with ⟨rfl, rfl⟩ | ⟨-, hy⟩
    · exact ⟨x, hx, htk.mp ht, (hsent (htk.mp ht)).symm⟩
    · exact ⟨y, hy, ht, rfl⟩

/-- No process that asks has a record yet, whatever the others store. -/
theorem ConnSound.alone_of_host (h : s.ConnSound c x) (ho : s.hosts p = some o) {o' : Host} (hne : x.stage ≠ .entered) :
    update s.hosts p (some o') c = none := by
  have hcp : c ≠ p := by
    rintro rfl
    rw [h.alone hne] at ho
    cases ho
  exact (update_of_ne hcp ..).trans (h.alone hne)

/-- A step is sound if it leaves sound what it changes, and drops no connection that is open. -/
theorem Sound.of (h : s.Sound) (hpids : s.pids ≤ t.pids)
    (hosts : ∀ q o, t.hosts q = some o → t.HostSound q o ∨ s.hosts q = some o ∧ Spares q s t)
    (conns : ∀ d x, t.conns d = some x → t.ConnSound d x ∨ s.conns d = some x ∧
      (x.stage ≠ .entered → s.hosts d = none → t.hosts d = none))
    (held : ∀ d x, s.conns d = some x → x.IsOpen → ∀ q o, s.hosts q = some o → d ∈ o.comfds →
      ∃ q o, t.hosts q = some o ∧ d ∈ o.comfds) : t.Sound where
  hosts q o ho := by
    rcases hosts q o ho with ht | ⟨hs, hsp⟩
    · exact ht
    · exact (h.hosts q o hs).frame hsp hpids
  conns d x hx := by
    rcases conns d x hx with ht | ⟨hs, hal⟩
    · exact ht
    · exact (h.conns d x hs).frame hpids (held d x hs) hal

/-- A step that stores a process. -/
theorem Sound.setHost {o' : Host} (h : s.Sound) (ho : s.hosts p = some o) (ht : t.hosts = update s.hosts p (some o'))
    (hpids : t.pids = s.pids) (hcom : ∀ d x, s.conns d = some x → x.IsOpen → d ∈ o.comfds → d ∈ o'.comfds)
    (hhost : t.HostSound p o') (hspare : ∀ q, q ≠ p → Spares q s t)
    (hconns : ∀ d x, t.conns d = some x → t.ConnSound d x ∨ s.conns d = some x) : t.Sound := by
  refine h.of (Nat.le_of_eq hpids.symm) (fun q o'' hq => ?_) (fun d x hx => ?_) (fun d x hx hopen q o'' hq hd => ?_)
  · rw [ht] at hq
    rcases update_eq_some.mp hq with ⟨rfl, rfl⟩ | ⟨hqp, hq⟩
    · exact Or.inl hhost
    · exact Or.inr ⟨hq, hspare q hqp⟩
  · refine (hconns d x hx).imp_right fun hs => ⟨hs, fun _ hd => ?_⟩
    have hdp : d ≠ p := by
      rintro rfl
      rw [ho] at hd
      cases hd
    rw [ht]
    exact (update_of_ne hdp ..).trans hd
  · by_cases hqp : q = p
    · subst hqp
      obtain rfl : o = o'' := Option.some.inj (ho.symm.trans hq)
      exact ⟨q, o', by rw [ht]; exact update_self .., hcom d x hx hopen hd⟩
    · exact ⟨q, o'', by rw [ht]; exact (update_of_ne hqp ..).trans hq, hd⟩

/-- A step that stores a connection. -/
theorem Sound.setConn {x' : Conn} (h : s.Sound) (hx : s.conns c = some x)
    (ht : t = s.setConn c x') (hacc : x'.accepted = x.accepted) (htk : x'.taker = x.taker) (hsent : x'.sent = x.sent)
    (hconn : t.ConnSound c x') : t.Sound := by
  subst ht
  refine h.of (Nat.le_refl _) (fun q o hq => Or.inr ⟨hq, ?_⟩) (fun d y hy => ?_) (fun d y hy _ q o hq hd => ⟨q, o, hq, hd⟩)
  · exact spares_update hx rfl (fun ha => hacc.trans ha) (by rw [htk]) fun _ => hsent
  · rcases update_eq_some.mp hy with ⟨rfl, rfl⟩ | ⟨-, hy⟩
    · exact Or.inl hconn
    · exact Or.inr ⟨hy, fun _ => id⟩

/-- Who has read two messages has read the listening socket and what `comfd` refers to, and both are from the process that
    received its request. -/
theorem ConnSound.delivered (h : s.ConnSound c x) (hlen : x.got.length = 2) :
    ∃ com : Endpoint, com.IsCom ∧ x.got = [.listener 0, com] ∧ ∃ p, x.taker = some p ∧ x.sent = answerOf p com := by
  have hle := h.got.length_le
  rw [List.length_map, hlen] at hle
  cases htk : x.taker with
  | none =>
    rw [h.untaken htk] at hle
    cases hle
  | some p =>
    obtain ⟨-, com, hcom, hpre⟩ := h.taken p htk
    have hsent : x.sent = answerOf p com := hpre.eq_of_length_le hle
    refine ⟨com, hcom, ?_, p, rfl, hsent⟩
    have hgot := h.got
    rw [hsent] at hgot
    exact hgot.eq_of_length hlen

/-- A request that is there was not received before. -/
theorem ConnSound.untaken_of_request (h : s.ConnSound c x) (hr : x.request = true) : x.taker = none := by
  cases htk : x.taker with
  | none => rfl
  | some p =>
    cases hst : x.stage with
    | waiting =>
      rw [(h.asked hst).mp hr] at htk
      cases htk
    | connected =>
      rw [(h.fresh hst).1] at hr
      cases hr
    | closed =>
      rw [(h.done (by simp [Conn.IsOpen, hst])).2] at hr
      cases hr
    | entered =>
      rw [(h.done (by simp [Conn.IsOpen, hst])).2] at hr
      cases hr

/-! ### One step -/

theorem sound_connect {pgid : Int} (h : s.Sound) (hs : s.step (.connect pgid) = some t) : t.Sound := by
  obtain ⟨-, rfl⟩ := connect_inv hs
  have hnone := h.fresh_conn (Nat.le_refl s.pids)
  refine h.of (Nat.le_succ _) (fun q o hq => Or.inr ⟨hq, ?_, ?_⟩) (fun d y hy => ?_)
    (fun d y hy _ q o hq hd => ⟨q, o, hq, hd⟩)
  · intro d y hy
    have hd : d ≠ s.pids := by
      rintro rfl
      rw [hnone] at hy
      cases hy
    exact ⟨y, (update_of_ne hd ..).trans hy, id, fun ht => ⟨ht, rfl⟩⟩
  · intro d y hy ht
    rcases update_eq_some.mp hy with ⟨rfl, rfl⟩ | ⟨-, hy⟩
    · cases ht
    · exact ⟨y, hy, ht, rfl⟩
  · rcases update_eq_some.mp hy with ⟨rfl, rfl⟩ | ⟨-, hy⟩
    · exact Or.inl {
        started := Nat.lt_succ_self _
        fresh := fun _ => ⟨rfl, rfl⟩
        asked := fun hst => by cases hst
        done := fun hno => absurd (Or.inl rfl) hno
        got := List.nil_prefix
        untaken := fun _ => rfl
        taken := fun q hq => by cases hq
        held := fun ha => by cases ha
        alone := fun _ => h.fresh_host (Nat.le_refl _) }
    · exact Or.inr ⟨hy, fun _ => id⟩

theorem sound_send (h : s.Sound) (hs : s.step (.send c) = some t) : t.Sound := by
  obtain ⟨x, hx, hst, rfl⟩ := send_inv hs
  have hc := h.conns c x hx
  obtain ⟨-, htk⟩ := hc.fresh hst
  exact h.setConn hx rfl rfl rfl rfl {
    started := hc.started
    fresh := fun hst => by cases hst
    asked := fun _ => by simp [htk]
    done := fun hno => absurd (Or.inr rfl) hno
    got := hc.got
    untaken := hc.untaken
    taken := hc.taken
    held := fun ha _ => hc.held ha (Or.inl hst)
    alone := fun _ => hc.alone (by simp [hst]) }

theorem sound_read (h : s.Sound) (hs : s.step (.read c) = some t) : t.Sound := by
  obtain ⟨x, m, hx, hst, -, hm, rfl⟩ := read_inv hs
  have hc := h.conns c x hx
  exact h.setConn hx rfl rfl rfl rfl {
    started := hc.started
    fresh := hc.fresh
    asked := hc.asked
    done := fun hno => absurd (Or.inr hst) hno
    got := by
      obtain ⟨rest, hrest⟩ := hc.got
      have hget : (x.sent.map (·.fd))[x.got.length]? = some m.fd := by simp [hm]
      rw [← hrest, List.getElem?_append_right (Nat.le_refl _), Nat.sub_self] at hget
      obtain ⟨rest', rfl⟩ : ∃ rest', rest = m.fd :: rest' := by
        cases rest with
        | nil => cases hget
        | cons a rest' =>
          cases hget
          exact ⟨rest', rfl⟩
      exact ⟨rest', by rw [← hrest]; simp⟩
    untaken := hc.untaken
    taken := hc.taken
    held := hc.held
    alone := hc.alone }

theorem sound_hangUp (h : s.Sound) (hs : s.step (.hangUp c) = some t) : t.Sound := by
  obtain ⟨x, hx, hst, hlen, rfl⟩ := hangUp_inv hs
  have hc := h.conns c x hx
  -- The process has read messages, so its request was received.
  have htk : x.taker ≠ none := by
    intro hnone
    have := hc.got.length_le
    rw [hc.untaken hnone] at this
    simp only [List.map_nil, List.length_nil] at this
    omega
  exact h.setConn hx rfl rfl rfl rfl {
    started := hc.started
    fresh := fun hst => by cases hst
    asked := fun hst => by cases hst
    done := fun _ => ⟨hlen, by
      cases hr : x.request
      · rfl
      · exact absurd ((hc.asked hst).mp hr) htk⟩
    got := hc.got
    untaken := hc.untaken
    taken := hc.taken
    held := fun _ hopen => by rcases hopen with hopen | hopen <;> cases hopen
    alone := fun _ => hc.alone (by simp [hst]) }

/-- A step that stores a process and leaves the connections. -/
theorem Sound.setHost_only {o' : Host} (h : s.Sound) (ho : s.hosts p = some o)
    (ht : t.hosts = update s.hosts p (some o')) (hc : t.conns = s.conns) (hpids : t.pids = s.pids)
    (hcom : ∀ d x, s.conns d = some x → x.IsOpen → d ∈ o.comfds → d ∈ o'.comfds) (hhost : s.HostSound p o') :
    t.Sound := by
  have hspare : ∀ q, Spares q s t := fun q => spares_same hc
  refine h.setHost ho ht hpids hcom (hhost.frame (hspare p) (Nat.le_of_eq hpids.symm))
    (fun q _ => hspare q) fun d x hx => Or.inr (hc ▸ hx)

/-- A process at no request does not care what its flags are. -/
theorem HostSound.idle {o' : Host} (h : s.HostSound p o) (hshadow : o'.shadow = o.shadow)
    (hcom : ∀ com ∈ o'.com, com.IsCom) (hcomfds : o'.comfds ⊆ o.comfds) (htask : o'.task = .idle)
    (hclosed : o'.sock.monitoring = false → o'.com ≠ some .name) (hopened : o'.sock.monitoring = true → o'.com ≠ none)
    (hsock : o.sock.transfer = true ∨ o.sock.monitoring = false →
      o'.sock.transfer = true ∨ o'.sock.monitoring = false) : s.HostSound p o' where
  started := h.started
  shadow := hshadow.trans h.shadow
  com := hcom
  closed := hclosed
  opened := hopened
  comfds c hc := h.comfds c (hcomfds hc)
  task c n ht := by
    rw [htask] at ht
    cases ht
  counted c x hx htk hor := by
    rcases hor with hne | ht
    · exact hsock (h.counted c x hx htk (Or.inl hne))
    · rw [htask] at ht
      cases ht

theorem sound_accept (h : s.Sound) (hs : s.step (.accept p c) = some t) : t.Sound := by
  obtain ⟨o, x, ho, hx, hi, -, -, -, -, rfl⟩ := accept_inv hs
  have hp := h.hosts p o ho
  have hc := h.conns c x hx
  have hspare : ∀ q, Spares q s ((s.setHost p { o with comfds := o.comfds ++ [c] }).setConn c
      { x with accepted := true }) := fun q => spares_update hx rfl (fun _ => rfl) Iff.rfl fun _ => rfl
  refine h.setHost ho rfl rfl (fun d _ _ _ hd => List.mem_append_left _ hd) ?_ (fun q _ => hspare q) fun d y hy => ?_
  · have hframe := hp.frame (hspare p) (Nat.le_refl _)
    exact {
      started := hframe.started
      shadow := hframe.shadow
      com := hframe.com
      closed := hframe.closed
      opened := hframe.opened
      comfds := fun d hd => by
        rcases List.mem_append.mp hd with hd | hd
        · exact hframe.comfds d hd
        · rw [List.mem_singleton.mp hd]
          exact ⟨_, update_self .., rfl⟩
      task := fun d n ht => by
        rw [show o.task = .idle from hi] at ht
        cases ht
      counted := hframe.counted }
  · rcases update_eq_some.mp hy with ⟨rfl, rfl⟩ | ⟨-, hy⟩
    · exact Or.inl {
        started := hc.started
        fresh := hc.fresh
        asked := hc.asked
        done := hc.done
        got := hc.got
        untaken := hc.untaken
        taken := fun q hq => ⟨rfl, (hc.taken q hq).2⟩
        held := fun _ _ => ⟨p, _, update_self .., List.mem_append_right _ (List.mem_singleton_self _)⟩
        alone := hc.alone_of_host ho }
    · exact Or.inr hy

theorem sound_recv (h : s.Sound) (hs : s.step (.recv p c) = some t) : t.Sound := by
  obtain ⟨o, x, ho, hx, hi, hin, ⟨hr, rfl⟩ | ⟨hr, hcl, rfl⟩⟩ := recv_inv hs
  · have hp := h.hosts p o ho
    have hc := h.conns c x hx
    -- A request that is there was not received before.
    have hwait : x.stage = .waiting := by
      cases hst : x.stage with
      | waiting => rfl
      | connected =>
        rw [(hc.fresh hst).1] at hr
        cases hr
      | closed =>
        rw [(hc.done (by simp [Conn.IsOpen, hst])).2] at hr
        cases hr
      | entered =>
        rw [(hc.done (by simp [Conn.IsOpen, hst])).2] at hr
        cases hr
    have htk : x.taker = none := (hc.asked hwait).mp hr
    have hsent := hc.untaken htk
    obtain ⟨x', hx', hacc⟩ := hp.comfds c hin
    obtain rfl : x = x' := Option.some.inj (hx.symm.trans hx')
    have hspare : ∀ q, q ≠ p → Spares q s ((s.setHost p { o with task := .taken c }).setConn c
        { x with request := false, taker := some p }) := fun q hqp =>
      spares_update hx rfl id (by simp [htk, Ne.symm hqp]) fun _ => rfl
    refine h.setHost ho rfl rfl (fun _ _ _ _ hd => hd) ?_ hspare fun d y hy => ?_
    · exact {
        started := hp.started
        shadow := hp.shadow
        com := hp.com
        closed := hp.closed
        opened := hp.opened
        comfds := fun d hd => by
          obtain ⟨y, hy, ha⟩ := hp.comfds d hd
          by_cases hdc : d = c
          · subst hdc
            exact ⟨_, update_self .., hacc⟩
          · exact ⟨y, (update_of_ne hdc ..).trans hy, ha⟩
        task := fun d n ht => by
          cases ht
          exact ⟨hin, _, update_self .., rfl, hsent⟩
        counted := fun d y hy hty hor => by
          rcases update_eq_some.mp hy with ⟨rfl, rfl⟩ | ⟨-, hy⟩
          · rcases hor with hne | ht
            · exact absurd hsent hne
            · cases ht
          · rcases hor with hne | ht
            · exact hp.counted d y hy hty (Or.inl hne)
            · cases ht }
    · rcases update_eq_some.mp hy with ⟨rfl, rfl⟩ | ⟨-, hy⟩
      · exact Or.inl {
          started := hc.started
          fresh := fun hst => by
            rw [show x.stage = .connected from hst] at hwait
            cases hwait
          asked := fun _ => by simp
          done := fun hno => absurd (Or.inr hwait) hno
          got := hc.got
          untaken := fun hnone => by cases hnone
          taken := fun q _ => ⟨hacc, by
            rw [show x.sent = [] from hsent]
            exact ⟨.name, Or.inl rfl, List.nil_prefix⟩⟩
          held := fun _ _ => ⟨p, _, update_self .., hin⟩
          alone := hc.alone_of_host ho }
      · exact Or.inr hy
  · refine h.setHost_only ho rfl rfl rfl (fun d y hy hopen hd => ?_) ((h.hosts p o ho).idle rfl (h.hosts p o ho).com
      List.erase_subset hi (h.hosts p o ho).closed
      (h.hosts p o ho).opened id)
    have hdc : d ≠ c := by
      rintro rfl
      obtain rfl : x = y := Option.some.inj (hx.symm.trans hy)
      rcases hopen with ho' | ho' <;> rcases hcl with hc' | hc' <;> rw [ho'] at hc' <;> cases hc'
    exact (List.mem_erase_of_ne hdc).mpr hd

theorem sound_monitor (h : s.Sound) (hs : s.step (.monitor p) = some t) : t.Sound := by
  obtain ⟨o, ho, hi, rfl⟩ := monitor_inv hs
  refine h.setHost_only ho rfl rfl rfl (fun _ _ _ _ hd => hd) ((h.hosts p o ho).idle rfl ?_ (fun _ => id) hi ?_ ?_ ?_)
  · intro com hcom
    simp only at hcom
    split at hcom
    · cases hcom
    · exact (h.hosts p o ho).com com hcom
  · intro hm
    rcases monitorSection_cases o.pgid s.status o.sock with ⟨hq, -⟩ | ⟨hq, -, he⟩ | ⟨hq, -, he⟩
    · simp [hq]
    all_goals
      simp only [he] at hm
      simpa [hq] using (h.hosts p o ho).closed hm
  · intro hm
    rcases monitorSection_cases o.pgid s.status o.sock with ⟨-, he⟩ | ⟨hq, -, he⟩ | ⟨hq, -, he⟩ <;> simp only [he] at hm
    · cases hm
    all_goals simpa [hq] using (h.hosts p o ho).opened hm
  · rcases monitorSection_cases o.pgid s.status o.sock with ⟨-, he⟩ | ⟨-, -, he⟩ | ⟨-, -, he⟩ <;> simp [he]

theorem sound_setLocked {locked : Bool} (h : s.Sound) (hs : s.step (.setLocked p locked) = some t) : t.Sound := by
  obtain ⟨o, ho, hi, rfl⟩ := setLocked_inv hs
  exact h.setHost_only ho rfl rfl rfl (fun _ _ _ _ hd => hd) ((h.hosts p o ho).idle rfl (h.hosts p o ho).com
    (fun _ => id) hi (h.hosts p o ho).closed
      (h.hosts p o ho).opened id)

theorem sound_reuse {opened : Bool} (h : s.Sound) (hs : s.step (.reuse p opened) = some t) : t.Sound := by
  obtain ⟨o, ho, hi, hm, -, rfl⟩ := reuse_inv hs
  refine h.setHost_only ho rfl rfl rfl (fun _ _ _ _ hd => hd) ((h.hosts p o ho).idle rfl ?_ (fun _ => id) hi ?_ ?_ id)
  · cases opened
    · rintro com ⟨⟩
    · rintro com ⟨⟩
      exact Or.inr rfl
  · intro _ hcom
    cases opened <;> cases hcom
  · intro hm'
    rw [show o.sock.monitoring = true from hm'] at hm
    cases hm

theorem answerSection_monitoring (st : Status) (sock : DsuSocket) :
    (answerSection st sock).2.monitoring = sock.monitoring := by
  unfold answerSection
  split <;> rfl

theorem sound_count (h : s.Sound) (hs : s.step (.count p) = some t) : t.Sound := by
  obtain ⟨o, c, ho, htask, rfl⟩ := count_inv hs
  have hp := h.hosts p o ho
  refine h.setHost_only ho rfl rfl rfl (fun _ _ _ _ hd => hd) ?_
  have htransfer : (answerSection s.status o.sock).2.transfer = true := by
    cases htr : o.sock.transfer <;> simp [answerSection, htr]
  have hmon := answerSection_monitoring s.status o.sock
  exact {
    started := hp.started
    shadow := hp.shadow
    com := hp.com
    closed := fun hm => hp.closed (hmon.symm.trans hm)
    opened := fun hm => hp.opened (hmon.symm.trans hm)
    comfds := hp.comfds
    task := fun d n ht => by
      cases ht
      exact hp.task c 0 (by rw [htask]; rfl)
    counted := fun _ _ _ _ _ => Or.inl htransfer }

/-- A process sends the next message of its answer. -/
theorem sound_write {n : Nat} {o' : Host} {fd : Endpoint} (h : s.Sound) (ho : s.hosts p = some o)
    (hx : s.conns c = some x) (hserves : o.task.serves = some (c, n))
    (hsend : ∃ com : Endpoint, com.IsCom ∧
      (shadowOf p).take n ++ [{ pid := p, fd := fd }] <+: answerOf p com)
    (hcounted : o.sock.transfer = true ∨ o.sock.monitoring = false)
    (ho' : o' = { o with task := o'.task })
    (htask : ∀ d m, o'.task.serves = some (d, m) → d = c ∧
      (shadowOf p).take n ++ [{ pid := p, fd := fd }] = (shadowOf p).take m) :
    ((s.setHost p o').setConn c { x with sent := x.sent ++ [{ pid := p, fd := fd }] }).Sound := by
  have hp := h.hosts p o ho
  have hc := h.conns c x hx
  obtain ⟨hin, x', hx', htk, hsent⟩ := hp.task c n hserves
  obtain rfl : x = x' := Option.some.inj (hx.symm.trans hx')
  have hacc := (hc.taken p htk).1
  have hspare : ∀ q, q ≠ p → Spares q s ((s.setHost p o').setConn c
      { x with sent := x.sent ++ [{ pid := p, fd := fd }] }) := fun q hqp =>
    spares_update hx rfl id Iff.rfl fun hq => absurd (Option.some.inj (hq.symm.trans htk)) hqp
  rw [ho'] at hspare ⊢
  refine h.setHost ho rfl rfl (fun _ _ _ _ hd => hd) ?_ hspare fun d y hy => ?_
  · exact {
      started := hp.started
      shadow := hp.shadow
      com := hp.com
      closed := hp.closed
      opened := hp.opened
      comfds := fun d hd => by
        obtain ⟨y, hy, ha⟩ := hp.comfds d hd
        by_cases hdc : d = c
        · subst hdc
          exact ⟨_, update_self .., hacc⟩
        · exact ⟨y, (update_of_ne hdc ..).trans hy, ha⟩
      task := fun d m ht => by
        obtain ⟨rfl, hm⟩ := htask d m ht
        exact ⟨hin, _, update_self .., htk, by rw [← hm, ← hsent]⟩
      counted := fun _ _ _ _ _ => hcounted }
  · rcases update_eq_some.mp hy with ⟨rfl, rfl⟩ | ⟨-, hy⟩
    · exact Or.inl {
        started := hc.started
        fresh := hc.fresh
        asked := hc.asked
        done := hc.done
        got := by
          rw [List.map_append]
          exact hc.got.trans (List.prefix_append _ _)
        untaken := fun hnone => by
          rw [show x.taker = none from hnone] at htk
          cases htk
        taken := fun q hq => by
          obtain rfl : p = q := Option.some.inj (htk.symm.trans hq)
          refine ⟨hacc, ?_⟩
          simp only [hsent]
          exact hsend
        held := fun _ _ => ⟨p, _, update_self .., hin⟩
        alone := hc.alone_of_host ho }
    · exact Or.inr hy

theorem sound_writeShadow (h : s.Sound) (hs : s.step (.writeShadow p) = some t) : t.Sound := by
  obtain ⟨o, c, x, ho, htask, hx, rfl⟩ := writeShadow_inv hs
  have hp := h.hosts p o ho
  obtain ⟨-, x', hx', htk, -⟩ := hp.task c 0 (by rw [htask]; rfl)
  refine sound_write (n := 0) h ho hx (by rw [htask]; rfl) ?_ (hp.counted c x' hx' htk (Or.inr htask)) rfl ?_
  · rw [hp.shadow]
    exact ⟨.name, Or.inl rfl, List.prefix_append (shadowOf p) _⟩
  · rintro d m ⟨⟩
    rw [hp.shadow]
    exact ⟨rfl, rfl⟩

theorem sound_writeCom (h : s.Sound) (hs : s.step (.writeCom p) = some t) : t.Sound := by
  obtain ⟨o, c, x, ho, htask, hx, ⟨com, hcom, rfl⟩ | ⟨-, rfl⟩⟩ := writeCom_inv hs
  · have hp := h.hosts p o ho
    obtain ⟨-, x', hx', htk, hsent⟩ := hp.task c 1 (by rw [htask]; rfl)
    refine sound_write (n := 1) h ho hx (by rw [htask]; rfl) ?_
      (hp.counted c x' hx' htk (Or.inl (by simp [hsent, shadowOf]))) rfl ?_
    · exact ⟨com, hp.com com hcom, List.prefix_rfl⟩
    · rintro d m ⟨⟩
  · exact h.setHost_only ho rfl rfl rfl (fun _ _ _ _ hd => hd) ((h.hosts p o ho).idle rfl (h.hosts p o ho).com
      (fun _ => id) rfl (h.hosts p o ho).closed
      (h.hosts p o ho).opened id)

/-- A step that gives a new process to the table. -/
theorem sound_newHost {o' : Host} (h : s.Sound) (hnone : s.hosts p = none)
    (ht : t.hosts = update s.hosts p (some o')) (hpids : s.pids ≤ t.pids) (hspare : ∀ q, Spares q s t)
    (hhost : t.HostSound p o')
    (hconns : ∀ d y, t.conns d = some y → t.ConnSound d y ∨ s.conns d = some y ∧ d ≠ p) : t.Sound := by
  have hkeep : ∀ q o, s.hosts q = some o → t.hosts q = some o := by
    intro q o hq
    have hqp : q ≠ p := by
      rintro rfl
      rw [hnone] at hq
      cases hq
    rw [ht]
    exact (update_of_ne hqp ..).trans hq
  refine h.of hpids (fun q o hq => ?_) (fun d y hy => ?_) fun d y _ _ q o hq hd => ⟨q, o, hkeep q o hq, hd⟩
  · rw [ht] at hq
    rcases update_eq_some.mp hq with ⟨rfl, rfl⟩ | ⟨-, hq⟩
    · exact Or.inl hhost
    · exact Or.inr ⟨hq, hspare q⟩
  · refine (hconns d y hy).imp_right fun ⟨hs, hdp⟩ => ⟨hs, fun _ hd => ?_⟩
    rw [ht]
    exact (update_of_ne hdp ..).trans hd

theorem sound_inherit (h : s.Sound) (hk : s.TakersEntered) (hs : s.step (.inherit c) = some t) : t.Sound := by
  obtain ⟨x, shadow, com, hx, hst, hgot, rfl⟩ := inherit_inv hs
  have hc := h.conns c x hx
  obtain ⟨com', hisCom, hgot', p, htk, hsent⟩ := hc.delivered (by rw [hgot]; rfl)
  obtain ⟨rfl, htail⟩ := List.cons.inj (hgot.symm.trans hgot')
  obtain ⟨rfl, -⟩ := List.cons.inj htail
  refine sound_newHost h (hc.alone (by simp [hst])) rfl (Nat.le_refl _)
    (fun q => spares_update hx rfl id Iff.rfl fun _ => rfl) ?_ fun d y hy => ?_
  · exact {
      started := hc.started
      shadow := rfl
      com := fun _ hcom => Option.some.inj hcom ▸ hisCom
      closed := fun hm => by cases hm
      opened := fun _ hnone => by cases hnone
      comfds := fun d hd => by cases hd
      task := fun d n ht => by cases ht
      counted := fun d y hy hty hor => by
        -- A process that has just entered has received no request.
        exfalso
        have := fun y hy (hty : y.taker = some c) => (hk d y c hy hty).2 x hx
        rw [hst] at this
        rcases update_eq_some.mp hy with ⟨rfl, rfl⟩ | ⟨-, hy⟩
        · cases this x hx hty
        · cases this y hy hty }
  · rcases update_eq_some.mp hy with ⟨rfl, rfl⟩ | ⟨hd, hy⟩
    · exact Or.inl {
        started := hc.started
        fresh := fun hst => by cases hst
        asked := fun hst => by cases hst
        done := fun _ => ⟨by rw [hgot]; rfl, (hc.done (by simp [Conn.IsOpen, hst])).2⟩
        got := hc.got
        untaken := hc.untaken
        taken := hc.taken
        held := fun _ hopen => by rcases hopen with hopen | hopen <;> cases hopen
        alone := fun hne => absurd rfl hne }
    · exact Or.inr ⟨hy, hd⟩

theorem sound_fork (h : s.Sound) (hk : s.TakersEntered) (hs : s.step (.fork p) = some t) : t.Sound := by
  obtain ⟨o, ho, hi, rfl⟩ := fork_inv hs
  have hp := h.hosts p o ho
  refine sound_newHost h (h.fresh_host (Nat.le_refl _)) rfl (Nat.le_succ _) (fun q => spares_same rfl) ?_
    fun d y hy => Or.inr ⟨hy, Nat.ne_of_lt (h.conns d y hy).started⟩
  · exact {
      started := Nat.lt_succ_self _
      shadow := hp.shadow
      com := hp.com
      closed := hp.closed
      opened := hp.opened
      comfds := hp.comfds
      task := fun d n ht => by
        rw [hi] at ht
        cases ht
      counted := fun d y hy hty _ => by
        have := (hk d y s.pids hy hty).1
        omega }

theorem sound_exit (h : s.Sound) (hs : s.step (.exit p) = some t) : t.Sound := by
  obtain ⟨o, ho, -, -, -, hnil, rfl⟩ := exit_inv hs
  refine h.of (Nat.le_refl _) (fun q o' hq => ?_) (fun d y hy => Or.inr ⟨hy, fun _ hd => ?_⟩) fun d y _ _ q o' hq hd => ?_
  · exact Or.inr ⟨(update_none_eq_some.mp hq).2, spares_same rfl⟩
  · by_cases hdp : d = p
    · subst hdp
      exact update_self ..
    · exact (update_of_ne hdp ..).trans hd
  · -- It holds no connection.
    have hqp : q ≠ p := by
      rintro rfl
      obtain rfl : o = o' := Option.some.inj (ho.symm.trans hq)
      rw [hnil] at hd
      cases hd
    exact ⟨q, o', (update_of_ne hqp ..).trans hq, hd⟩

/-! ### Who receives a request -/

theorem takersEntered_of (h : s.TakersEntered) (hpids : s.pids ≤ t.pids)
    (hstage : ∀ q y', t.conns q = some y' → s.pids ≤ q ∨
      ∃ y, s.conns q = some y ∧ (y.stage = .entered → y'.stage = .entered))
    (htaker : ∀ c x' p, t.conns c = some x' → x'.taker = some p → (∃ x, s.conns c = some x ∧ x.taker = some p) ∨
      p < s.pids ∧ ∀ y, s.conns p = some y → y.stage = .entered) : t.TakersEntered := by
  intro c x' p hx' htk
  obtain ⟨hlt, hent⟩ : p < s.pids ∧ ∀ y, s.conns p = some y → y.stage = .entered := by
    rcases htaker c x' p hx' htk with ⟨x, hx, htk⟩ | hknown
    · exact h c x p hx htk
    · exact hknown
  refine ⟨Nat.lt_of_lt_of_le hlt hpids, fun y' hy' => ?_⟩
  rcases hstage p y' hy' with hge | ⟨y, hy, himp⟩
  · omega
  · exact himp (hent y hy)

theorem takersEntered_same (h : s.TakersEntered) (hpids : s.pids ≤ t.pids) (hc : t.conns = s.conns) : t.TakersEntered :=
  takersEntered_of h hpids (fun _ y' hy' => Or.inr ⟨y', hc ▸ hy', id⟩) fun _ x' _ hx' htk => Or.inl ⟨x', hc ▸ hx', htk⟩

theorem takersEntered_setConn {x' : Conn} (h : s.TakersEntered) (hpids : s.pids ≤ t.pids) (hx : s.conns c = some x)
    (ht : t.conns = update s.conns c (some x')) (hst : x.stage = .entered → x'.stage = .entered)
    (htk : x'.taker = x.taker ∨ ∃ p, x'.taker = some p ∧ p < s.pids ∧ ∀ y, s.conns p = some y → y.stage = .entered) :
    t.TakersEntered := by
  refine takersEntered_of h hpids (fun q y' hy' => ?_) fun d y' p hy' hp => ?_
  · rw [ht] at hy'
    rcases update_eq_some.mp hy' with ⟨rfl, rfl⟩ | ⟨-, hy'⟩
    · exact Or.inr ⟨x, hx, hst⟩
    · exact Or.inr ⟨y', hy', id⟩
  · rw [ht] at hy'
    rcases update_eq_some.mp hy' with ⟨rfl, rfl⟩ | ⟨-, hy'⟩
    · rcases htk with htk | ⟨q, hq, hknown⟩
      · exact Or.inl ⟨x, hx, htk ▸ hp⟩
      · obtain rfl : q = p := Option.some.inj (hq.symm.trans hp)
        exact Or.inr hknown
    · exact Or.inl ⟨y', hy', hp⟩

theorem step_takersEntered {a : RequestAct} (h : s.TakersEntered) (hsound : s.Sound) (hs : s.step a = some t) :
    t.TakersEntered := by
  cases a with
  | connect pgid =>
    obtain ⟨-, rfl⟩ := connect_inv hs
    refine takersEntered_of h (Nat.le_succ _) (fun q y' hy' => ?_) fun d y' p hy' hp => ?_
    · rcases update_eq_some.mp hy' with ⟨rfl, -⟩ | ⟨-, hy'⟩
      · exact Or.inl (Nat.le_refl _)
      · exact Or.inr ⟨y', hy', id⟩
    · rcases update_eq_some.mp hy' with ⟨-, rfl⟩ | ⟨-, hy'⟩
      · cases hp
      · exact Or.inl ⟨y', hy', hp⟩
  | send c =>
    obtain ⟨x, hx, hst, rfl⟩ := send_inv hs
    exact takersEntered_setConn h (Nat.le_refl _) hx rfl (by simp [hst]) (Or.inl rfl)
  | accept p c =>
    obtain ⟨o, x, -, hx, -, -, -, -, -, rfl⟩ := accept_inv hs
    exact takersEntered_setConn h (Nat.le_refl _) hx rfl id (Or.inl rfl)
  | recv p c =>
    obtain ⟨o, x, ho, hx, -, -, ⟨-, rfl⟩ | ⟨-, -, rfl⟩⟩ := recv_inv hs
    · refine takersEntered_setConn h (Nat.le_refl _) hx rfl id (Or.inr ⟨p, rfl, (hsound.hosts p o ho).started, ?_⟩)
      intro y hy
      by_contra hne
      rw [(hsound.conns p y hy).alone hne] at ho
      cases ho
    · exact takersEntered_same h (Nat.le_refl _) rfl
  | count p =>
    obtain ⟨o, c, -, -, rfl⟩ := count_inv hs
    exact takersEntered_same h (Nat.le_refl _) rfl
  | writeShadow p =>
    obtain ⟨o, c, x, -, -, hx, rfl⟩ := writeShadow_inv hs
    exact takersEntered_setConn h (Nat.le_refl _) hx rfl id (Or.inl rfl)
  | writeCom p =>
    obtain ⟨o, c, x, -, -, hx, ⟨com, -, rfl⟩ | ⟨-, rfl⟩⟩ := writeCom_inv hs
    · exact takersEntered_setConn h (Nat.le_refl _) hx rfl id (Or.inl rfl)
    · exact takersEntered_same h (Nat.le_refl _) rfl
  | read c =>
    obtain ⟨x, m, hx, -, -, -, rfl⟩ := read_inv hs
    exact takersEntered_setConn h (Nat.le_refl _) hx rfl id (Or.inl rfl)
  | hangUp c =>
    obtain ⟨x, hx, hst, -, rfl⟩ := hangUp_inv hs
    exact takersEntered_setConn h (Nat.le_refl _) hx rfl (by simp [hst]) (Or.inl rfl)
  | inherit c =>
    obtain ⟨x, shadow, com, hx, -, -, rfl⟩ := inherit_inv hs
    exact takersEntered_setConn h (Nat.le_refl _) hx rfl (fun _ => rfl) (Or.inl rfl)
  | fork p =>
    obtain ⟨o, -, -, rfl⟩ := fork_inv hs
    exact takersEntered_same h (Nat.le_succ _) rfl
  | monitor p =>
    obtain ⟨o, -, -, rfl⟩ := monitor_inv hs
    exact takersEntered_same h (Nat.le_refl _) rfl
  | setLocked p locked =>
    obtain ⟨o, -, -, rfl⟩ := setLocked_inv hs
    exact takersEntered_same h (Nat.le_refl _) rfl
  | reuse p opened =>
    obtain ⟨o, -, -, -, -, rfl⟩ := reuse_inv hs
    exact takersEntered_same h (Nat.le_refl _) rfl
  | exit p =>
    obtain ⟨o, -, -, -, -, -, rfl⟩ := exit_inv hs
    exact takersEntered_same h (Nat.le_refl _) rfl

theorem step_sound {a : RequestAct} (h : s.Sound) (hk : s.TakersEntered) (hs : s.step a = some t) : t.Sound := by
  cases a with
  | connect pgid => exact sound_connect h hs
  | send c => exact sound_send h hs
  | accept p c => exact sound_accept h hs
  | recv p c => exact sound_recv h hs
  | count p => exact sound_count h hs
  | writeShadow p => exact sound_writeShadow h hs
  | writeCom p => exact sound_writeCom h hs
  | read c => exact sound_read h hs
  | hangUp c => exact sound_hangUp h hs
  | inherit c => exact sound_inherit h hk hs
  | fork p => exact sound_fork h hk hs
  | monitor p => exact sound_monitor h hs
  | setLocked p locked => exact sound_setLocked h hs
  | reuse p opened => exact sound_reuse h hs
  | exit p => exact sound_exit h hs

theorem sound_start (port : Nat) (pgid : Int) : (start port pgid).Sound where
  hosts p o ho := by
    obtain ⟨rfl, ho⟩ := Option.ite_none_right_eq_some.mp ho
    cases ho
    exact {
      started := Nat.one_pos
      shadow := rfl
      com := fun com hcom => Or.inl (Option.some.inj hcom).symm
      closed := fun hm => by cases hm
      opened := fun _ hnone => by cases hnone
      comfds := fun d hd => by cases hd
      task := fun d n ht => by cases ht
      counted := fun d y hy => by cases hy }
  conns c x hx := by cases hx

/-- Every reachable state is sound. -/
theorem sound_of_reachable (h : requestMachine.Reachable s) : s.Sound ∧ s.TakersEntered := by
  refine h.invariant (I := fun s => s.Sound ∧ s.TakersEntered) ?_ ?_
  · rintro _ ⟨port, pgid, -, rfl⟩
    exact ⟨sound_start port pgid, fun c x p hx => by cases hx⟩
  · rintro s a t ⟨hi, hk⟩ hs
    exact ⟨step_sound hi hk hs, step_takersEntered hk hi hs⟩

/-! ### What has got the number of a closed `comfd` -/

/-- What has only got the number of a closed `comfd` was sent on the connection. -/
def Strayed (s : RequestState) (c : Nat) : Prop := ∃ x, s.conns c = some x ∧ ∃ m ∈ x.sent, m.fd = .other

/-- A message is not taken back. -/
theorem step_strayed {a : RequestAct} (hsound : s.Sound) (hs : s.step a = some t) (h : s.Strayed c) : t.Strayed c := by
  obtain ⟨x, hx, m, hm, hfd⟩ := h
  -- A connection with at least the messages that it had.
  have stored : ∀ {d : Nat} {y y' : Conn}, s.conns d = some y → t.conns = update s.conns d (some y') →
      y.sent ⊆ y'.sent → t.Strayed c := by
    intro d y y' hy ht hsub
    by_cases hd : c = d
    · subst hd
      obtain rfl : x = y := Option.some.inj (hx.symm.trans hy)
      exact ⟨y', by rw [ht]; exact update_self .., m, hsub hm, hfd⟩
    · exact ⟨x, by rw [ht]; exact (update_of_ne hd ..).trans hx, m, hm, hfd⟩
  rcases step_conns hs with ht | ht | ⟨hy, ht, hsent⟩ | ⟨-, hy, ht, -⟩
  · exact ⟨x, by rw [ht]; exact hx, m, hm, hfd⟩
  · have hne : c ≠ s.pids := Nat.ne_of_lt (hsound.conns c x hx).started
    exact ⟨x, by rw [ht]; exact (update_of_ne hne ..).trans hx, m, hm, hfd⟩
  · exact stored hy ht (by rw [hsent]; exact fun _ => id)
  · exact stored hy ht (List.subset_append_left _ _)

/-- Only a step that is not genuine sends such a message. -/
theorem step_not_strayed {a : RequestAct} (hsound : s.Sound) (hg : s.genuine a = true) (hs : s.step a = some t)
    (h : ¬s.Strayed c) : ¬t.Strayed c := by
  rintro ⟨y, hy, m, hm, hfd⟩
  rcases step_conns hs with ht | ht | ⟨hx, ht, hsent⟩ | @⟨d, p, o, x, fd, ho, hx, ht, hby⟩
  · exact h ⟨y, by rw [← ht]; exact hy, m, hm, hfd⟩
  all_goals
    rw [ht] at hy
    rcases update_eq_some.mp hy with ⟨rfl, rfl⟩ | ⟨-, hy⟩
  · cases hm
  · exact h ⟨y, hy, m, hm, hfd⟩
  · exact h ⟨_, hx, m, hsent ▸ hm, hfd⟩
  · exact h ⟨y, hy, m, hm, hfd⟩
  · rcases List.mem_append.mp hm with hm | hm
    · exact h ⟨x, hx, m, hm, hfd⟩
    · obtain rfl := List.mem_singleton.mp hm
      rcases hby with ⟨-, -, hshadow⟩ | ⟨rfl, -, hcom⟩
      · have : o.shadow = .other := hshadow.symm.trans hfd
        rw [(hsound.hosts p o ho).shadow] at this
        cases this
      · have : o.com = some .other := hcom.trans (congrArg some hfd)
        simp [genuine, ho, this] at hg
  · exact h ⟨y, hy, m, hm, hfd⟩

/-- No such message was sent, and who monitors has the socket of the abstract name. -/
structure Unstrayed (s : RequestState) : Prop where
  sent : ∀ c, ¬s.Strayed c
  com : ∀ p o, s.hosts p = some o → o.sock.monitoring = true → o.com = some .name

/-- Who has read two messages has then read the right ones. -/
theorem Unstrayed.delivered (h : s.Unstrayed) (hc : s.ConnSound c x) (hx : s.conns c = some x) (hlen : x.got.length = 2) :
    x.got = [.listener 0, .name] ∧ ∃ p, x.taker = some p ∧ x.sent = answerOf p .name := by
  obtain ⟨com, rfl | rfl, hgot, p, htk, hsent⟩ := hc.delivered hlen
  · exact ⟨hgot, p, htk, hsent⟩
  · exact absurd ⟨x, hx, { pid := p, fd := .other }, by rw [hsent]; simp [answerOf], rfl⟩ (h.sent c)

theorem unstrayed_com {a : RequestAct} (h : s.Unstrayed) (hsound : s.Sound) (hs : s.step a = some t) {o' : Host}
    (ho' : t.hosts p = some o') (hm : o'.sock.monitoring = true) : o'.com = some .name := by
  -- A process that the step stores.
  have stored : ∀ {q : Nat} {o₁ : Host}, update s.hosts q (some o₁) p = some o' →
      (o₁.sock.monitoring = true → o₁.com = some .name) → o'.com = some .name := by
    intro q o₁ ho' hcom
    rcases update_eq_some.mp ho' with ⟨-, rfl⟩ | ⟨-, ho'⟩
    · exact hcom hm
    · exact h.com p o' ho' hm
  cases a with
  | connect pgid =>
    obtain ⟨-, rfl⟩ := connect_inv hs
    exact h.com p o' ho' hm
  | send c =>
    obtain ⟨x, -, -, rfl⟩ := send_inv hs
    exact h.com p o' ho' hm
  | accept q c =>
    obtain ⟨o, x, ho, -, -, -, -, -, -, rfl⟩ := accept_inv hs
    exact stored ho' (h.com q o ho)
  | recv q c =>
    obtain ⟨o, x, ho, -, -, -, ⟨-, rfl⟩ | ⟨-, -, rfl⟩⟩ := recv_inv hs
    · exact stored ho' (h.com q o ho)
    · exact stored ho' (h.com q o ho)
  | count q =>
    obtain ⟨o, c, ho, -, rfl⟩ := count_inv hs
    refine stored ho' fun hm => h.com q o ho ?_
    rw [← answerSection_monitoring s.status o.sock]
    exact hm
  | writeShadow q =>
    obtain ⟨o, c, x, ho, -, -, rfl⟩ := writeShadow_inv hs
    exact stored ho' (h.com q o ho)
  | writeCom q =>
    obtain ⟨o, c, x, ho, -, -, ⟨com, -, rfl⟩ | ⟨-, rfl⟩⟩ := writeCom_inv hs
    · exact stored ho' (h.com q o ho)
    · exact stored ho' (h.com q o ho)
  | read c =>
    obtain ⟨x, m, -, -, -, -, rfl⟩ := read_inv hs
    exact h.com p o' ho' hm
  | hangUp c =>
    obtain ⟨x, -, -, -, rfl⟩ := hangUp_inv hs
    exact h.com p o' ho' hm
  | inherit c =>
    obtain ⟨x, shadow, com, hx, hst, hgot, rfl⟩ := inherit_inv hs
    obtain ⟨hgot', -⟩ := h.delivered (hsound.conns c x hx) hx (by rw [hgot]; rfl)
    obtain ⟨-, htail⟩ := List.cons.inj (hgot.symm.trans hgot')
    obtain ⟨rfl, -⟩ := List.cons.inj htail
    exact stored ho' fun _ => rfl
  | fork q =>
    obtain ⟨o, ho, -, rfl⟩ := fork_inv hs
    exact stored ho' (h.com q o ho)
  | monitor q =>
    obtain ⟨o, ho, -, rfl⟩ := monitor_inv hs
    refine stored ho' fun hm => ?_
    rcases monitorSection_cases o.pgid s.status o.sock with ⟨-, he⟩ | ⟨hq, -, he⟩ | ⟨hq, -, he⟩ <;> simp only [he] at hm
    · cases hm
    all_goals simpa [hq] using h.com q o ho hm
  | setLocked q locked =>
    obtain ⟨o, ho, -, rfl⟩ := setLocked_inv hs
    exact stored ho' (h.com q o ho)
  | reuse q opened =>
    obtain ⟨o, ho, -, hno, -, rfl⟩ := reuse_inv hs
    refine stored ho' fun hm => ?_
    rw [hno] at hm
    cases hm
  | exit q =>
    obtain ⟨o, -, -, -, -, -, rfl⟩ := exit_inv hs
    exact h.com p o' (update_none_eq_some.mp ho').2 hm

/-- So it is in every state of a run that hands over no such descriptor. -/
theorem unstrayed_of_reachable (h : genuineMachine.Reachable s) : s.Unstrayed := by
  induction h with
  | init h =>
    obtain ⟨port, pgid, -, rfl⟩ := h
    refine ⟨fun c ⟨x, hx, _⟩ => (nomatch hx), fun p o ho hm => ?_⟩
    obtain ⟨-, ho⟩ := Option.ite_none_right_eq_some.mp ho
    cases ho
    rfl
  | step a hr hs ih =>
    obtain ⟨hg, hs⟩ := Machine.guard_step_iff.mp hs
    obtain ⟨hsound, -⟩ := sound_of_reachable hr.of_guard
    exact ⟨fun c => step_not_strayed hsound hg hs (ih.sent c), fun p o ho hm => unstrayed_com ih hsound hs ho hm⟩

/-- What the process of a connection is given, where `P` says what a `comfd` refers to: one process answers it, the listening
    socket first, once it is counted; who asks reads the messages in order and goes on with two; and until then a process
    holds the connection. -/
structure HandedOver (s : RequestState) (P : Endpoint → Prop) (c : Nat) (x : Conn) : Prop where
  got : x.got <+: x.sent.map (·.fd)
  sent : x.sent = [] ∨ ∃ p com, P com ∧ x.sent <+: answerOf p com ∧
    ∀ o, s.hosts p = some o → o.sock.transfer = true ∨ o.sock.monitoring = false
  done : ¬x.IsOpen → ∃ com, P com ∧ x.got = [.listener 0, com]
  held : x.accepted = true → x.IsOpen → ∃ p o, s.hosts p = some o ∧ c ∈ o.comfds

theorem Sound.handedOver (h : s.Sound) (hx : s.conns c = some x) : s.HandedOver Endpoint.IsCom c x := by
  have hc := h.conns c x hx
  refine { got := hc.got, sent := ?_, done := fun hno => ?_, held := hc.held }
  · by_cases hsent : x.sent = []
    · exact Or.inl hsent
    · obtain ⟨p, htk⟩ := Option.ne_none_iff_exists'.mp fun hnone => hsent (hc.untaken hnone)
      obtain ⟨-, com, hisCom, hpre⟩ := hc.taken p htk
      exact Or.inr ⟨p, com, hisCom, hpre, fun o ho => (h.hosts p o ho).counted c x hx htk (Or.inl hsent)⟩
  · obtain ⟨com, hisCom, hgot, -⟩ := hc.delivered (hc.done hno).1
    exact ⟨com, hisCom, hgot⟩

theorem Unstrayed.handedOver (h : s.Unstrayed) (hsound : s.Sound) (hx : s.conns c = some x) :
    s.HandedOver (· = .name) c x := by
  obtain ⟨hgot, hsent, hdone, hheld⟩ := hsound.handedOver hx
  have hc := hsound.conns c x hx
  refine { got := hgot, sent := hsent.imp_right ?_, done := fun hno => ?_, held := hheld }
  · rintro ⟨p, com, rfl | rfl, hpre, hcounted⟩
    · exact ⟨p, .name, rfl, hpre, hcounted⟩
    · -- The second message is not sent yet.
      rcases List.prefix_concat_iff.mp hpre with hfull | hfirst
      · exact absurd ⟨x, hx, { pid := p, fd := .other }, by rw [hfull]; simp, rfl⟩ (h.sent c)
      · exact ⟨p, .name, rfl, hfirst.trans (List.prefix_append _ _), hcounted⟩
  · exact ⟨.name, rfl, (h.delivered hc hx (hc.done hno).1).1⟩

end RequestState
end OpenDSU
