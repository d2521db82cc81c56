import OpenDSU.Theorems.RequestRefines

/-! The hand-overs that never end. A process that stops monitoring closes its `comfd`, but goes on answering on the
connections it has accepted: it then sends one message of the two, and the process that asked waits for the other for
ever, on a connection that keeps the one that answered from terminating. It is not given the socket of the abstract name in
any run, and goes on only with what has got the number of that `comfd`. -/

namespace OpenDSU

/-- The socket of the abstract name was sent on the connection. -/
def Conn.Whole (x : Conn) : Prop := ∃ m ∈ x.sent, m.fd = .name

theorem Conn.whole_congr {x y : Conn} (h : y.sent = x.sent) : y.Whole ↔ x.Whole := by
  rw [Whole, Whole, h]

namespace RequestState
open Function

/-- The process can send the socket of the abstract name on the connection. -/
def MayAnswer (c : Nat) (x : Conn) (o : Host) : Prop :=
  c ∈ o.comfds ∧ o.com = some .name ∧ (x.taker = none ∨ ∃ n, o.task.serves = some (c, n))

/-- The connection is out of the backlog without a whole answer, and no process can give one. -/
def Stranded (s : RequestState) (c : Nat) : Prop :=
  ∃ x, s.conns c = some x ∧ x.accepted = true ∧ ¬x.Whole ∧ ∀ p o, s.hosts p = some o → ¬MayAnswer c x o

variable {s t : RequestState} {p c d : Nat} {o : Host} {x : Conn}

/-! ### A stranded connection stays so -/

/-- With less than two messages, the process that asks is still at it. -/
theorem ConnSound.isOpen_of_sent (h : s.ConnSound c x) (hlt : x.sent.length < 2) : x.IsOpen := by
  by_contra hno
  obtain ⟨com, -, -, p, -, hsent⟩ := h.delivered (h.done hno).1
  rw [hsent] at hlt
  simp [answerOf, shadowOf] at hlt

/-- The process that answers is the one that has received the request. -/
theorem Sound.taker_of_serves (h : s.Sound) {n : Nat} (ho : s.hosts p = some o) (hx : s.conns c = some x)
    (hs : o.task.serves = some (c, n)) : c ∈ o.comfds ∧ x.taker = some p ∧ x.sent = (shadowOf p).take n := by
  obtain ⟨hc, x', hx', htk, hsent⟩ := (h.hosts p o ho).task c n hs
  obtain rfl : x = x' := Option.some.inj (hx.symm.trans hx')
  exact ⟨hc, htk, hsent⟩

/-- While it is at it, the answer is not whole. -/
theorem Sound.not_whole_of_serves (h : s.Sound) {n : Nat} (ho : s.hosts p = some o) (hx : s.conns c = some x)
    (hs : o.task.serves = some (c, n)) : ¬x.Whole := by
  obtain ⟨-, -, hsent⟩ := h.taker_of_serves ho hx hs
  rintro ⟨m, hm, hfd⟩
  rw [hsent] at hm
  rw [List.mem_singleton.mp (List.mem_of_mem_take hm)] at hfd
  cases hfd

/-- It is enough that the answer is not whole yet, and that who can give one could before. -/
theorem stranded_of {y : Conn} (h : ∀ p o, s.hosts p = some o → ¬MayAnswer c x o) (hy : t.conns c = some y)
    (hacc : y.accepted = true) (hlt : ¬y.Whole)
    (hmay : ∀ p o, t.hosts p = some o → MayAnswer c y o → ∃ p o, s.hosts p = some o ∧ MayAnswer c x o) :
    t.Stranded c := by
  refine ⟨y, hy, hacc, hlt, fun p o ho hm => ?_⟩
  obtain ⟨q, o', ho', hm'⟩ := hmay p o ho hm
  exact h q o' ho' hm'

/-- A step of one process that leaves the connection. -/
theorem stranded_setHost {o' : Host} (h : s.Stranded c) (ho : s.hosts p = some o)
    (ht : t.hosts = update s.hosts p (some o')) (hc : t.conns c = s.conns c)
    (hmay : ∀ x, s.conns c = some x → MayAnswer c x o' → MayAnswer c x o) : t.Stranded c := by
  obtain ⟨x, hx, hacc, hlt, hno⟩ := h
  refine stranded_of hno (hc.trans hx) hacc hlt fun q o'' hq hm => ?_
  rw [ht] at hq
  rcases update_eq_some.mp hq with ⟨rfl, rfl⟩ | ⟨-, hq⟩
  · exact ⟨q, o, ho, hmay x hx hm⟩
  · exact ⟨q, o'', hq, hm⟩

/-- A step on the connection that answers nothing. -/
theorem stranded_setConn {d : Nat} {y y' : Conn} (h : s.Stranded c) (hy : s.conns d = some y)
    (hacc : y'.accepted = y.accepted) (hsent : y'.sent = y.sent) (htk : y'.taker = y.taker) :
    (s.setConn d y').Stranded c := by
  obtain ⟨x, hx, hacc', hlt, hno⟩ := h
  by_cases hd : c = d
  · subst hd
    obtain rfl : x = y := Option.some.inj (hx.symm.trans hy)
    refine stranded_of hno (update_self ..) (hacc.trans hacc') ((Conn.whole_congr hsent).not.mpr hlt) fun q o ho hm => ?_
    exact ⟨q, o, ho, by simpa only [MayAnswer, htk] using hm⟩
  · exact ⟨x, (update_of_ne hd ..).trans hx, hacc', hlt, hno⟩

theorem stranded_recv (h : s.Stranded c) (hsound : s.Sound) {d : Nat} (hs : s.step (.recv p d) = some t) :
    t.Stranded c := by
  obtain ⟨o, y, ho, hy, hi, hin, ⟨hr, rfl⟩ | ⟨-, hcl, rfl⟩⟩ := recv_inv hs
  · by_cases hd : c = d
    · subst hd
      obtain ⟨x, hx, hacc, hlt, hno⟩ := h
      obtain rfl : x = y := Option.some.inj (hx.symm.trans hy)
      have htk := (hsound.conns c x hx).untaken_of_request hr
      refine stranded_of hno (update_self ..) hacc hlt fun q o' hq hm => ?_
      obtain ⟨hcq, hcom, htake | ⟨n, hserves⟩⟩ := hm
      · cases htake
      · rcases update_eq_some.mp hq with ⟨rfl, rfl⟩ | ⟨-, hq⟩
        · exact ⟨q, o, ho, hin, hcom, Or.inl htk⟩
        · obtain ⟨-, htk', -⟩ := hsound.taker_of_serves hq hx hserves
          rw [htk] at htk'
          cases htk'
    · refine stranded_setHost h ho rfl (update_of_ne hd ..) fun x _ hm => ?_
      obtain ⟨hcq, hcom, htake | ⟨n, hserves⟩⟩ := hm
      · exact ⟨hcq, hcom, Or.inl htake⟩
      · simp only [Task.serves, Option.some.injEq, Prod.mk.injEq] at hserves
        exact absurd hserves.1.symm hd
  · refine stranded_setHost h ho rfl rfl fun x hx hm => ?_
    exact ⟨List.mem_of_mem_erase hm.1, hm.2.1, hm.2.2⟩

theorem stranded_writeShadow (h : s.Stranded c) (hsound : s.Sound) (hs : s.step (.writeShadow p) = some t) :
    t.Stranded c := by
  obtain ⟨o, d, y, ho, htask, hy, rfl⟩ := writeShadow_inv hs
  have hserves : o.task.serves = some (d, 0) := by rw [htask]; rfl
  by_cases hd : c = d
  · subst hd
    obtain ⟨x, hx, hacc, hlt, hno⟩ := h
    obtain rfl : x = y := Option.some.inj (hx.symm.trans hy)
    obtain ⟨hin, -, hsent⟩ := hsound.taker_of_serves ho hx hserves
    have hlt' : ¬Conn.Whole { x with sent := x.sent ++ [{ pid := p, fd := o.shadow }] } := by
      simp [Conn.Whole, hsent, (hsound.hosts p o ho).shadow]
    refine stranded_of hno (update_self ..) hacc hlt' fun q o' hq hm => ?_
    rcases update_eq_some.mp hq with ⟨rfl, rfl⟩ | ⟨-, hq⟩
    · exact ⟨q, o, ho, hin, hm.2.1, Or.inr ⟨0, hserves⟩⟩
    · exact ⟨q, o', hq, hm⟩
  · refine stranded_setHost h ho rfl (update_of_ne hd ..) fun x _ hm => ?_
    obtain ⟨hcq, hcom, htake | ⟨n, hn⟩⟩ := hm
    · exact ⟨hcq, hcom, Or.inl htake⟩
    · simp only [Task.serves, Option.some.injEq, Prod.mk.injEq] at hn
      exact absurd hn.1.symm hd

theorem stranded_writeCom (h : s.Stranded c) (hsound : s.Sound) (hs : s.step (.writeCom p) = some t) :
    t.Stranded c := by
  obtain ⟨o, d, y, ho, htask, hy, hcase⟩ := writeCom_inv hs
  have hserves : o.task.serves = some (d, 1) := by rw [htask]; rfl
  have hidle : ∀ x, MayAnswer c x { o with task := .idle } → MayAnswer c x o := by
    rintro x ⟨hcq, hcom, htake | ⟨n, hn⟩⟩
    · exact ⟨hcq, hcom, Or.inl htake⟩
    · cases hn
  rcases hcase with ⟨com, hcom, rfl⟩ | ⟨-, rfl⟩
  · by_cases hd : c = d
    · subst hd
      obtain ⟨x, hx, hacc, hlt, hno⟩ := h
      obtain rfl : x = y := Option.some.inj (hx.symm.trans hy)
      obtain ⟨hin, -, -⟩ := hsound.taker_of_serves ho hx hserves
      -- With the socket of the abstract name it could give a whole answer.
      have hne : com ≠ .name := by
        rintro rfl
        exact hno p o ho ⟨hin, hcom, Or.inr ⟨1, hserves⟩⟩
      refine stranded_of hno (update_self ..) hacc ?_ fun q o' hq hm => ?_
      · rintro ⟨m, hm, hfd⟩
        rcases List.mem_append.mp hm with hm | hm
        · exact hlt ⟨m, hm, hfd⟩
        · rw [List.mem_singleton.mp hm] at hfd
          exact hne hfd
      · rcases update_eq_some.mp hq with ⟨rfl, rfl⟩ | ⟨-, hq⟩
        · exact ⟨q, o, ho, hidle x hm⟩
        · exact ⟨q, o', hq, hm⟩
    · exact stranded_setHost h ho rfl (update_of_ne hd ..) fun x _ => hidle x
  · exact stranded_setHost h ho rfl rfl fun x _ => hidle x

theorem step_stranded {a : RequestAct} (h : s.Stranded c) (hsound : s.Sound) (hs : s.step a = some t) :
    t.Stranded c := by
  cases a with
  | connect pgid =>
    obtain ⟨-, rfl⟩ := connect_inv hs
    obtain ⟨x, hx, hacc, hlt, hno⟩ := h
    have hne : c ≠ s.pids := Nat.ne_of_lt (hsound.conns c x hx).started
    exact ⟨x, (update_of_ne hne ..).trans hx, hacc, hlt, hno⟩
  | send d =>
    obtain ⟨y, hy, -, rfl⟩ := send_inv hs
    exact stranded_setConn h hy rfl rfl rfl
  | accept p d =>
    obtain ⟨o, y, ho, hy, -, -, -, hacc, -, rfl⟩ := accept_inv hs
    have hd : c ≠ d := by
      rintro rfl
      obtain ⟨x, hx, hacc', -⟩ := h
      obtain rfl : x = y := Option.some.inj (hx.symm.trans hy)
      rw [hacc] at hacc'
      cases hacc'
    refine stranded_setHost h ho rfl (update_of_ne hd ..) fun x _ hm => ?_
    rcases List.mem_append.mp hm.1 with hin | hin
    · exact ⟨hin, hm.2⟩
    · exact absurd (List.mem_singleton.mp hin) hd
  | recv => exact stranded_recv h hsound hs
  | count p =>
    obtain ⟨o, d, ho, htask, rfl⟩ := count_inv hs
    refine stranded_setHost h ho rfl rfl fun x _ hm => ⟨hm.1, hm.2.1, hm.2.2.imp_right ?_⟩
    rw [htask]
    exact id
  | writeShadow => exact stranded_writeShadow h hsound hs
  | writeCom => exact stranded_writeCom h hsound hs
  | read d =>
    obtain ⟨y, m, hy, -, -, -, rfl⟩ := read_inv hs
    exact stranded_setConn h hy rfl rfl rfl
  | hangUp d =>
    obtain ⟨y, hy, -, -, rfl⟩ := hangUp_inv hs
    exact stranded_setConn h hy rfl rfl rfl
  | inherit d =>
    obtain ⟨y, shadow, com, hy, hst, hgot, rfl⟩ := inherit_inv hs
    have hst' : (s.setConn d { y with stage := .entered }).Stranded c := stranded_setConn h hy rfl rfl rfl
    obtain ⟨x, hx, hacc, hlt, hno⟩ := hst'
    refine stranded_of hno hx hacc hlt fun q o hq hm => ?_
    rcases update_eq_some.mp hq with ⟨rfl, rfl⟩ | ⟨-, hq⟩
    · cases hm.1
    · exact ⟨q, o, hq, hm⟩
  | fork p =>
    obtain ⟨o, ho, -, rfl⟩ := fork_inv hs
    obtain ⟨x, hx, hacc, hlt, hno⟩ := h
    refine stranded_of hno hx hacc hlt fun q o' hq hm => ?_
    rcases update_eq_some.mp hq with ⟨rfl, rfl⟩ | ⟨-, hq⟩
    · exact ⟨p, o, ho, hm⟩
    · exact ⟨q, o', hq, hm⟩
  | monitor p =>
    obtain ⟨o, ho, -, rfl⟩ := monitor_inv hs
    refine stranded_setHost h ho rfl rfl fun x _ hm => ⟨hm.1, ?_, hm.2.2⟩
    have hcom : (if o.sock.quits s.status then none else o.com) = some .name := hm.2.1
    split at hcom
    · cases hcom
    · exact hcom
  | setLocked p locked =>
    obtain ⟨o, ho, -, rfl⟩ := setLocked_inv hs
    exact stranded_setHost h ho rfl rfl fun x _ => id
  | reuse p opened =>
    obtain ⟨o, ho, -, -, -, rfl⟩ := reuse_inv hs
    refine stranded_setHost h ho rfl rfl fun x _ hm => ?_
    have hcom : (if opened then some Endpoint.other else none) = some .name := hm.2.1
    cases opened <;> cases hcom
  | exit p =>
    obtain ⟨o, ho, -, -, -, -, rfl⟩ := exit_inv hs
    obtain ⟨x, hx, hacc, hlt, hno⟩ := h
    exact ⟨x, hx, hacc, hlt, fun q o hq => hno q o (update_none_eq_some.mp hq).2⟩

/-! ### How a connection comes to be stranded -/

/-- The connection is in the backlog, or has its answer, or a process can give it one. -/
def Answerable (s : RequestState) (c : Nat) (x : Conn) : Prop :=
  x.accepted = false ∨ x.Whole ∨ ∃ p o, s.hosts p = some o ∧ MayAnswer c x o

/-- A process stops monitoring that alone can answer the connection, or one that has stopped receives the request. -/
def Strands (s : RequestState) (c : Nat) (x : Conn) (a : RequestAct) : Prop :=
  ∃ p o, s.hosts p = some o ∧
    (a = .monitor p ∧ o.sock.quits s.status = true ∧ x.accepted = true ∧ ¬x.Whole ∧
        (∀ q o', s.hosts q = some o' → MayAnswer c x o' → q = p) ∨
      a = .recv p c ∧ x.request = true ∧ o.com ≠ some .name)

theorem answerable_iff (hx : s.conns c = some x) : s.Answerable c x ↔ ¬s.Stranded c := by
  constructor
  · rintro hans ⟨y, hy, hacc, hlt, hno⟩
    obtain rfl : x = y := Option.some.inj (hx.symm.trans hy)
    rcases hans with hacc' | hwhole | ⟨p, o, ho, hm⟩
    · rw [hacc] at hacc'
      cases hacc'
    · exact hlt hwhole
    · exact hno p o ho hm
  · intro hno
    by_contra hans
    obtain ⟨hacc, hlt, hmay⟩ : ¬x.accepted = false ∧ ¬x.Whole ∧ ¬∃ p o, s.hosts p = some o ∧ MayAnswer c x o := by
      simpa only [Answerable, not_or] using hans
    exact hno ⟨x, hx, by simpa using hacc, hlt, fun p o ho hm => hmay ⟨p, o, ho, hm⟩⟩

/-- A step of one process that leaves the connection. -/
theorem answerable_setHost {o' : Host} (h : s.Answerable c x) (ho : s.hosts p = some o)
    (ht : t.hosts = update s.hosts p (some o')) (hmay : MayAnswer c x o → MayAnswer c x o') : t.Answerable c x := by
  refine h.imp_right (Or.imp_right ?_)
  rintro ⟨q, o'', hq, hm⟩
  by_cases hqp : q = p
  · subst hqp
    obtain rfl : o = o'' := Option.some.inj (ho.symm.trans hq)
    exact ⟨q, o', by rw [ht]; exact update_self .., hmay hm⟩
  · exact ⟨q, o'', by rw [ht]; exact (update_of_ne hqp ..).trans hq, hm⟩

/-- A step of another process, or of the one that asks. -/
theorem answerable_other (h : s.Answerable c x) {y : Conn} (hacc : y.accepted = x.accepted) (hsent : y.sent = x.sent)
    (htk : y.taker = x.taker) (hosts : ∀ p o, s.hosts p = some o → c ∈ o.comfds → t.hosts p = some o) :
    t.Answerable c y := by
  rcases h with hacc' | hwhole | ⟨p, o, ho, hm⟩
  · exact Or.inl (hacc.trans hacc')
  · exact Or.inr (Or.inl ((Conn.whole_congr hsent).mpr hwhole))
  · exact Or.inr (Or.inr ⟨p, o, hosts p o ho hm.1, hm.1, hm.2.1, by rw [htk]; exact hm.2.2⟩)

/-- Who has hung up has a whole answer. -/
theorem Answerable.whole_of_done (h : s.Answerable c x) (hsound : s.Sound) (hx : s.conns c = some x) (hno : ¬x.IsOpen) :
    x.Whole := by
  have hc := hsound.conns c x hx
  obtain ⟨com, -, -, q, htk, hsent⟩ := hc.delivered (hc.done hno).1
  rcases h with hacc | hwhole | ⟨p, o, ho, hm⟩
  · rw [(hc.taken q htk).1] at hacc
    cases hacc
  · exact hwhole
  · rcases hm.2.2 with htk' | ⟨n, hserves⟩
    · rw [htk] at htk'
      cases htk'
    · -- Nobody is at the request any more.
      obtain ⟨-, -, hsent'⟩ := hsound.taker_of_serves ho hx hserves
      have hlen := congrArg List.length (hsent.symm.trans hsent')
      simp only [answerOf, shadowOf, List.length_take, List.length_append, List.length_cons, List.length_nil] at hlen
      omega

/-- Where a process has received the request of the connection and not answered it in full, it is the one that can. -/
theorem Answerable.of_serves {n : Nat} (h : s.Answerable c x) (hsound : s.Sound) (hx : s.conns c = some x)
    (ho : s.hosts p = some o) (hserves : o.task.serves = some (c, n)) : MayAnswer c x o := by
  obtain ⟨-, htk, -⟩ := hsound.taker_of_serves ho hx hserves
  rcases h with hacc | hwhole | ⟨q, o', hq, hm⟩
  · rw [((hsound.conns c x hx).taken p htk).1] at hacc
    cases hacc
  · exact absurd hwhole (hsound.not_whole_of_serves ho hx hserves)
  · rcases hm.2.2 with htk' | ⟨m, hserves'⟩
    · rw [htk] at htk'
      cases htk'
    · obtain rfl := hsound.task_unique ho hq hserves hserves'
      obtain rfl : o = o' := Option.some.inj (ho.symm.trans hq)
      exact hm

theorem answerable_recv (h : s.Answerable c x) (hsound : s.Sound) (hx : s.conns c = some x)
    (hno : ¬s.Strands c x (.recv p d)) (hs : s.step (.recv p d) = some t) :
    ∃ y, t.conns c = some y ∧ t.Answerable c y := by
  obtain ⟨o, y, ho, hy, hi, hin, ⟨hr, rfl⟩ | ⟨-, hcl, rfl⟩⟩ := recv_inv hs
  · by_cases hd : c = d
    · subst hd
      obtain rfl : x = y := Option.some.inj (hx.symm.trans hy)
      have hcom : o.com = some .name := by
        by_contra hne
        exact hno ⟨p, o, ho, Or.inr ⟨rfl, hr, hne⟩⟩
      exact ⟨_, update_self .., Or.inr (Or.inr ⟨p, _, update_self .., hin, hcom, Or.inr ⟨0, rfl⟩⟩)⟩
    · refine ⟨x, (update_of_ne hd ..).trans hx, answerable_setHost h ho rfl fun hm => ⟨hm.1, hm.2.1, ?_⟩⟩
      rcases hm.2.2 with htk | ⟨n, hserves⟩
      · exact Or.inl htk
      · rw [hi] at hserves
        cases hserves
  · refine ⟨x, hx, ?_⟩
    by_cases hd : c = d
    · subst hd
      obtain rfl : x = y := Option.some.inj (hx.symm.trans hy)
      exact Or.inr (Or.inl (h.whole_of_done hsound hx (by rcases hcl with h | h <;> simp [Conn.IsOpen, h])))
    · exact answerable_setHost h ho rfl fun hm => ⟨(List.mem_erase_of_ne hd).mpr hm.1, hm.2⟩

theorem answerable_writeShadow (h : s.Answerable c x) (hsound : s.Sound) (hx : s.conns c = some x)
    (hs : s.step (.writeShadow p) = some t) : ∃ y, t.conns c = some y ∧ t.Answerable c y := by
  obtain ⟨o, d, y, ho, htask, hy, rfl⟩ := writeShadow_inv hs
  have hserves : o.task.serves = some (d, 0) := by rw [htask]; rfl
  by_cases hd : c = d
  · subst hd
    obtain ⟨hin, hcom, -⟩ := h.of_serves hsound hx ho hserves
    exact ⟨_, update_self .., Or.inr (Or.inr ⟨p, _, update_self .., hin, hcom, Or.inr ⟨1, rfl⟩⟩)⟩
  · refine ⟨x, (update_of_ne hd ..).trans hx, answerable_setHost h ho rfl fun hm => ⟨hm.1, hm.2.1, ?_⟩⟩
    rcases hm.2.2 with htk | ⟨n, hn⟩
    · exact Or.inl htk
    · rw [hserves] at hn
      cases hn
      exact absurd rfl hd

theorem answerable_writeCom (h : s.Answerable c x) (hsound : s.Sound) (hx : s.conns c = some x)
    (hs : s.step (.writeCom p) = some t) : ∃ y, t.conns c = some y ∧ t.Answerable c y := by
  obtain ⟨o, d, y, ho, htask, hy, hcase⟩ := writeCom_inv hs
  have hserves : o.task.serves = some (d, 1) := by rw [htask]; rfl
  by_cases hd : c = d
  · subst hd
    obtain rfl : x = y := Option.some.inj (hx.symm.trans hy)
    obtain ⟨-, hname, -⟩ := h.of_serves hsound hx ho hserves
    rcases hcase with ⟨com, hcom, rfl⟩ | ⟨hnone, -⟩
    · obtain rfl := Option.some.inj (hname.symm.trans hcom)
      exact ⟨_, update_self .., Or.inr (Or.inl ⟨_, List.mem_append_right _ (List.mem_singleton_self _), rfl⟩)⟩
    · rw [hname] at hnone
      cases hnone
  · have hidle : MayAnswer c x o → MayAnswer c x { o with task := .idle } := fun hm => ⟨hm.1, hm.2.1, by
      rcases hm.2.2 with htk | ⟨n, hn⟩
      · exact Or.inl htk
      · rw [hserves] at hn
        cases hn
        exact absurd rfl hd⟩
    rcases hcase with ⟨com, -, rfl⟩ | ⟨-, rfl⟩
    · exact ⟨x, (update_of_ne hd ..).trans hx, answerable_setHost h ho rfl hidle⟩
    · exact ⟨x, hx, answerable_setHost h ho rfl hidle⟩

/-- A step on a connection that answers nothing. -/
theorem answerable_setConn {y y' : Conn} (h : s.Answerable c x) (hx : s.conns c = some x) (hy : s.conns d = some y)
    (ht : t.conns = update s.conns d (some y')) (hacc : y'.accepted = y.accepted) (hsent : y'.sent = y.sent)
    (htk : y'.taker = y.taker)
    (hosts : ∀ p o, s.hosts p = some o → c ∈ o.comfds → t.hosts p = some o) :
    ∃ z, t.conns c = some z ∧ t.Answerable c z := by
  rw [ht]
  by_cases hd : c = d
  · subst hd
    obtain rfl : x = y := Option.some.inj (hx.symm.trans hy)
    exact ⟨y', update_self .., answerable_other h hacc hsent htk hosts⟩
  · exact ⟨x, (update_of_ne hd ..).trans hx, answerable_other h rfl rfl rfl hosts⟩

theorem step_answerable {a : RequestAct} (h : s.Answerable c x) (hsound : s.Sound) (hx : s.conns c = some x)
    (hno : ¬s.Strands c x a) (hs : s.step a = some t) : ∃ y, t.conns c = some y ∧ t.Answerable c y := by
  cases a with
  | connect pgid =>
    obtain ⟨-, rfl⟩ := connect_inv hs
    have hne : c ≠ s.pids := Nat.ne_of_lt (hsound.conns c x hx).started
    exact ⟨x, (update_of_ne hne ..).trans hx, h⟩
  | send d =>
    obtain ⟨y, hy, -, rfl⟩ := send_inv hs
    exact answerable_setConn h hx hy rfl rfl rfl rfl fun _ _ ho _ => ho
  | accept p d =>
    obtain ⟨o, y, ho, hy, -, -, hcom, hacc, -, rfl⟩ := accept_inv hs
    by_cases hd : c = d
    · subst hd
      obtain rfl : x = y := Option.some.inj (hx.symm.trans hy)
      have htk : x.taker = none := by
        cases htk : x.taker with
        | none => rfl
        | some q =>
          rw [((hsound.conns c x hx).taken q htk).1] at hacc
          cases hacc
      exact ⟨_, update_self .., Or.inr (Or.inr ⟨p, _, update_self .., by simp, hcom, Or.inl htk⟩)⟩
    · refine ⟨x, (update_of_ne hd ..).trans hx, answerable_setHost h ho rfl fun hm => ⟨?_, hm.2⟩⟩
      exact List.mem_append_left _ hm.1
  | recv => exact answerable_recv h hsound hx hno hs
  | count p =>
    obtain ⟨o, d, ho, htask, rfl⟩ := count_inv hs
    refine ⟨x, hx, answerable_setHost h ho rfl fun hm => ⟨hm.1, hm.2.1, hm.2.2.imp_right ?_⟩⟩
    rw [htask]
    exact id
  | writeShadow => exact answerable_writeShadow h hsound hx hs
  | writeCom => exact answerable_writeCom h hsound hx hs
  | read d =>
    obtain ⟨y, m, hy, -, -, -, rfl⟩ := read_inv hs
    exact answerable_setConn h hx hy rfl rfl rfl rfl fun _ _ ho _ => ho
  | hangUp d =>
    obtain ⟨y, hy, -, -, rfl⟩ := hangUp_inv hs
    exact answerable_setConn h hx hy rfl rfl rfl rfl fun _ _ ho _ => ho
  | inherit d =>
    obtain ⟨y, shadow, com, hy, hst, -, rfl⟩ := inherit_inv hs
    refine answerable_setConn h hx hy rfl rfl rfl rfl fun p o ho _ => ?_
    have hpd : p ≠ d := by
      rintro rfl
      rw [(hsound.conns p y hy).alone (by simp [hst])] at ho
      cases ho
    exact (update_of_ne hpd ..).trans ho
  | fork p =>
    obtain ⟨o, ho, -, rfl⟩ := fork_inv hs
    refine ⟨x, hx, answerable_other h rfl rfl rfl fun q o' hq _ => ?_⟩
    exact (update_of_ne (Nat.ne_of_lt (hsound.hosts q o' hq).started) ..).trans hq
  | monitor p =>
    obtain ⟨o, ho, -, rfl⟩ := monitor_inv hs
    refine ⟨x, hx, ?_⟩
    by_cases hq : o.sock.quits s.status = true
    · by_cases hall : ∀ q o', s.hosts q = some o' → MayAnswer c x o' → q = p
      · -- It is the only one that can answer, so there is nothing to answer.
        cases hacc : x.accepted with
        | false => exact Or.inl hacc
        | true =>
          by_cases hwhole : x.Whole
          · exact Or.inr (Or.inl hwhole)
          · exact absurd ⟨p, o, ho, Or.inl ⟨rfl, hq, hacc, hwhole, hall⟩⟩ hno
      · push Not at hall
        obtain ⟨q, o', ho', hm, hqp⟩ := hall
        exact Or.inr (Or.inr ⟨q, o', (update_of_ne hqp ..).trans ho', hm⟩)
    · exact answerable_setHost h ho rfl fun hm => ⟨hm.1, by simpa [hq] using hm.2.1, hm.2.2⟩
  | setLocked p locked =>
    obtain ⟨o, ho, -, rfl⟩ := setLocked_inv hs
    exact ⟨x, hx, answerable_setHost h ho rfl id⟩
  | reuse p opened =>
    obtain ⟨o, ho, -, hm, -, rfl⟩ := reuse_inv hs
    -- A process that has stopped could not answer it.
    refine ⟨x, hx, answerable_setHost h ho rfl fun hmay => ?_⟩
    exact absurd hmay.2.1 ((hsound.hosts p o ho).closed hm)
  | exit p =>
    obtain ⟨o, ho, -, -, -, hnone, rfl⟩ := exit_inv hs
    refine ⟨x, hx, answerable_other h rfl rfl rfl fun q o' hq hin => ?_⟩
    have hqp : q ≠ p := by
      rintro rfl
      obtain rfl : o = o' := Option.some.inj (ho.symm.trans hq)
      rw [hnone] at hin
      cases hin
    exact (update_of_ne hqp ..).trans hq

/-- The other way round: both strand the connection. -/
theorem stranded_of_strands {a : RequestAct} (hsound : s.Sound) (hx : s.conns c = some x) (h : s.Strands c x a)
    (hs : s.step a = some t) : t.Stranded c := by
  obtain ⟨p, o, ho, ⟨rfl, hq, hacc, hlt, hall⟩ | ⟨rfl, hr, hcom⟩⟩ := h
  · obtain ⟨o', ho', -, rfl⟩ := monitor_inv hs
    obtain rfl : o = o' := Option.some.inj (ho.symm.trans ho')
    refine ⟨x, hx, hacc, hlt, fun q o' hq' hm => ?_⟩
    rcases update_eq_some.mp hq' with ⟨rfl, rfl⟩ | ⟨hqp, hq'⟩
    · have hcom := hm.2.1
      simp [hq] at hcom
    · exact hqp (hall q o' hq' hm)
  · obtain ⟨o', y, ho', hy, hi, hin, ⟨-, rfl⟩ | ⟨hr', -⟩⟩ := recv_inv hs
    · obtain rfl : o = o' := Option.some.inj (ho.symm.trans ho')
      obtain rfl : x = y := Option.some.inj (hx.symm.trans hy)
      have htk := (hsound.conns c x hx).untaken_of_request hr
      obtain ⟨y, hy', hacc⟩ := (hsound.hosts p o ho).comfds c hin
      obtain rfl : x = y := Option.some.inj (hx.symm.trans hy')
      refine ⟨_, update_self .., hacc, by simp [Conn.Whole, (hsound.conns c x hx).untaken htk], fun q o' hq hm => ?_⟩
      rcases update_eq_some.mp hq with ⟨rfl, rfl⟩ | ⟨-, hq⟩
      · exact hcom hm.2.1
      · rcases hm.2.2 with htk' | ⟨n, hserves⟩
        · cases htk'
        · obtain ⟨-, htk', -⟩ := hsound.taker_of_serves hq hx hserves
          rw [htk] at htk'
          cases htk'
    · obtain rfl : x = y := Option.some.inj (hx.symm.trans hy)
      rw [hr] at hr'
      cases hr'

theorem strands_of_stranded {a : RequestAct} (hr : requestMachine.Reachable s) (hx : s.conns c = some x)
    (hno : ¬s.Stranded c) (hs : s.step a = some t) (ht : t.Stranded c) : s.Strands c x a := by
  obtain ⟨hsound, hk⟩ := sound_of_reachable hr
  by_contra hkeep
  obtain ⟨y, hy, hans⟩ := step_answerable ((answerable_iff hx).mpr hno) hsound hx hkeep hs
  exact (answerable_iff hy).mp hans ht

/-- A hand-over that can end is lost in two ways: the only process that can answer an accepted connection stops
    monitoring before it has, or a process that has stopped receives the request of a connection it shares. -/
theorem strands_iff {a : RequestAct} (hr : requestMachine.Reachable s) (hx : s.conns c = some x) (hno : ¬s.Stranded c)
    (hs : requestMachine.step s a = some t) : t.Stranded c ↔ s.Strands c x a :=
  ⟨strands_of_stranded hr hx hno hs, fun h => stranded_of_strands (sound_of_reachable hr).1 hx h hs⟩

/-- The second version has taken over, and the first has accepted the connection of a third process. -/
def overtake : List RequestAct :=
  [.connect 7, .send 1, .accept 0 1, .recv 0 1, .count 0, .writeShadow 0, .writeCom 0, .read 1, .read 1, .hangUp 1,
    .inherit 1, .connect 7, .send 2, .accept 0 2, .monitor 1]

/-- Then the first stops monitoring. -/
def supersede : List RequestAct := overtake ++ [.monitor 0]

theorem strands_iff_overtake : ∃ s x t, requestMachine.Reachable s ∧ s.conns 2 = some x ∧ ¬s.Stranded 2 ∧
    requestMachine.step s (.monitor 0) = some t ∧ (t.Stranded 2 ↔ s.Strands 2 x (.monitor 0)) := by
  obtain ⟨s, hs, ⟨x, hx, htk⟩, ⟨o, ho, hcom, hin⟩, t, ht⟩ :
      ∃ s, requestMachine.run (start 8080 5) overtake = some s ∧
        (∃ x, s.conns 2 = some x ∧ x.taker = none) ∧
        (∃ o, s.hosts 0 = some o ∧ o.com = some .name ∧ o.comfds = [1, 2]) ∧
        ∃ t, requestMachine.step s (.monitor 0) = some t :=
    ⟨_, rfl, ⟨_, rfl, rfl⟩, ⟨_, rfl, rfl, rfl⟩, _, rfl⟩
  have hr : requestMachine.Reachable s := .of_run overtake (.init ⟨8080, 5, by decide, rfl⟩) hs
  have hno : ¬s.Stranded 2 := by
    rintro ⟨y, hy, -, -, hno⟩
    obtain rfl : x = y := Option.some.inj (hx.symm.trans hy)
    exact hno 0 o ho ⟨by simp [hin], hcom, Or.inl htk⟩
  exact ⟨s, x, t, hr, hx, hno, ht, strands_iff hr hx hno ht⟩

theorem stranded_supersede : ∃ s, genuineMachine.run (start 8080 5) supersede = some s ∧
    genuineMachine.Reachable s ∧ s.Stranded 2 ∧ ¬s.Strayed 2 := by
  obtain ⟨s, hs, hpids, ⟨x, hx, hacc, hsent⟩, ⟨o, ho, hcom⟩, ⟨o', ho', hin⟩, hnone⟩ :
      ∃ s, genuineMachine.run (start 8080 5) supersede = some s ∧ s.pids = 3 ∧
        (∃ x, s.conns 2 = some x ∧ x.accepted = true ∧ x.sent = []) ∧
        (∃ o, s.hosts 0 = some o ∧ o.com = none) ∧ (∃ o, s.hosts 1 = some o ∧ o.comfds = []) ∧ s.hosts 2 = none :=
    ⟨_, rfl, rfl, ⟨_, rfl, rfl, rfl⟩, ⟨_, rfl, rfl⟩, ⟨_, rfl, rfl⟩, rfl⟩
  have hr : genuineMachine.Reachable s := .of_run supersede (.init ⟨8080, 5, by decide, rfl⟩) hs
  have hstray : ¬s.Strayed 2 := by
    rintro ⟨y, hy, m, hm, -⟩
    obtain rfl : x = y := Option.some.inj (hx.symm.trans hy)
    rw [hsent] at hm
    cases hm
  refine ⟨s, hs, hr, ⟨x, hx, hacc, by simp [Conn.Whole, hsent], fun p q hq hm => ?_⟩, hstray⟩
  have hp : p < 3 := hpids ▸ ((sound_of_reachable hr.of_guard).1.hosts p q hq).started
  match p, hp with
  | 0, _ =>
    obtain rfl : o = q := Option.some.inj (ho.symm.trans hq)
    have hname := hm.2.1
    rw [hcom] at hname
    cases hname
  | 1, _ =>
    obtain rfl : o' = q := Option.some.inj (ho'.symm.trans hq)
    exact absurd hm.1 (by simp [hin])
  | 2, _ =>
    rw [hnone] at hq
    cases hq

/-! ### What it keeps from terminating -/

/-- A process holds the connection. -/
def Holds (s : RequestState) (p c : Nat) : Prop := ∃ o, s.hosts p = some o ∧ c ∈ o.comfds

theorem holds_setHost {q : Nat} {o' : Host} (h : s.Holds p c) (ho : s.hosts q = some o)
    (ht : t.hosts = update s.hosts q (some o')) (hsub : c ∈ o.comfds → c ∈ o'.comfds) : t.Holds p c := by
  obtain ⟨o'', hp, hin⟩ := h
  by_cases hpq : p = q
  · subst hpq
    obtain rfl : o = o'' := Option.some.inj (ho.symm.trans hp)
    exact ⟨o', by rw [ht]; exact update_self .., hsub hin⟩
  · exact ⟨o'', by rw [ht]; exact (update_of_ne hpq ..).trans hp, hin⟩

/-- Nobody closes a connection that is open at its other end, and who holds one does not exit. -/
theorem step_holds {a : RequestAct} (hsound : s.Sound) (hx : s.conns c = some x) (hopen : x.IsOpen) (h : s.Holds p c)
    (hs : s.step a = some t) : t.Holds p c := by
  cases a with
  | connect pgid =>
    obtain ⟨-, rfl⟩ := connect_inv hs
    exact h
  | send d =>
    obtain ⟨y, -, -, rfl⟩ := send_inv hs
    exact h
  | accept q d =>
    obtain ⟨o, y, ho, -, -, -, -, -, -, rfl⟩ := accept_inv hs
    exact holds_setHost h ho rfl fun hin => List.mem_append_left _ hin
  | recv q d =>
    obtain ⟨o, y, ho, hy, -, -, ⟨-, rfl⟩ | ⟨-, hcl, rfl⟩⟩ := recv_inv hs
    · exact holds_setHost h ho rfl id
    · have hd : c ≠ d := by
        rintro rfl
        obtain rfl : x = y := Option.some.inj (hx.symm.trans hy)
        rcases hopen with hst | hst <;> rw [hst] at hcl <;> simp at hcl
      exact holds_setHost h ho rfl fun hin => (List.mem_erase_of_ne hd).mpr hin
  | count q =>
    obtain ⟨o, d, ho, -, rfl⟩ := count_inv hs
    exact holds_setHost h ho rfl id
  | writeShadow q =>
    obtain ⟨o, d, y, ho, -, -, rfl⟩ := writeShadow_inv hs
    exact holds_setHost h ho rfl id
  | writeCom q =>
    obtain ⟨o, d, y, ho, -, -, ⟨com, -, rfl⟩ | ⟨-, rfl⟩⟩ := writeCom_inv hs
    · exact holds_setHost h ho rfl id
    · exact holds_setHost h ho rfl id
  | read d =>
    obtain ⟨y, m, -, -, -, -, rfl⟩ := read_inv hs
    exact h
  | hangUp d =>
    obtain ⟨y, -, -, -, rfl⟩ := hangUp_inv hs
    exact h
  | inherit d =>
    obtain ⟨y, shadow, com, hy, hst, -, rfl⟩ := inherit_inv hs
    obtain ⟨o, ho, hin⟩ := h
    have hpd : p ≠ d := by
      rintro rfl
      rw [(hsound.conns p y hy).alone (by simp [hst])] at ho
      cases ho
    exact ⟨o, (update_of_ne hpd ..).trans ho, hin⟩
  | fork q =>
    obtain ⟨o, -, -, rfl⟩ := fork_inv hs
    obtain ⟨o', ho, hin⟩ := h
    exact ⟨o', (update_of_ne (Nat.ne_of_lt (hsound.hosts p o' ho).started) ..).trans ho, hin⟩
  | monitor q =>
    obtain ⟨o, ho, -, rfl⟩ := monitor_inv hs
    exact holds_setHost h ho rfl id
  | setLocked q locked =>
    obtain ⟨o, ho, -, rfl⟩ := setLocked_inv hs
    exact holds_setHost h ho rfl id
  | reuse q opened =>
    obtain ⟨o, ho, -, -, -, rfl⟩ := reuse_inv hs
    exact holds_setHost h ho rfl id
  | exit q =>
    obtain ⟨o, ho, -, -, -, hnone, rfl⟩ := exit_inv hs
    obtain ⟨o', hp, hin⟩ := h
    have hpq : p ≠ q := by
      rintro rfl
      obtain rfl : o = o' := Option.some.inj (ho.symm.trans hp)
      rw [hnone] at hin
      cases hin
    exact ⟨o', (update_of_ne hpq ..).trans hp, hin⟩

/-- Who is stranded is still at it, unless it is given what has got the number of a closed `comfd`. -/
theorem Stranded.isOpen (h : s.Stranded c) (hsound : s.Sound) (hno : ¬s.Strayed c) : ∃ x, s.conns c = some x ∧ x.IsOpen := by
  obtain ⟨x, hx, -, hlt, -⟩ := h
  refine ⟨x, hx, ?_⟩
  by_contra hdone
  have hc := hsound.conns c x hx
  obtain ⟨com, hcom, -, p, -, hsent⟩ := hc.delivered (hc.done hdone).1
  have hlast : { pid := p, fd := com } ∈ x.sent := by
    rw [hsent]
    exact List.mem_append_right _ (List.mem_singleton_self _)
  rcases hcom with rfl | rfl
  · exact hlt ⟨_, hlast, rfl⟩
  · exact hno ⟨x, hx, _, hlast, rfl⟩

theorem run_stranded {as : List RequestAct} (hr : requestMachine.Reachable s) (h : s.Stranded c)
    (hrun : requestMachine.run s as = some t) :
    t.Sound ∧ t.Stranded c ∧ (t.Strayed c ∨ ∀ p, s.Holds p c → t.Holds p c) := by
  have keep : ∀ u a v, requestMachine.Reachable u ∧ u.Stranded c ∧ (u.Strayed c ∨ ∀ p, s.Holds p c → u.Holds p c) →
      requestMachine.step u a = some v →
      requestMachine.Reachable v ∧ v.Stranded c ∧ (v.Strayed c ∨ ∀ p, s.Holds p c → v.Holds p c) := by
    rintro u a v ⟨hu, hst, hh⟩ hs
    obtain ⟨hsound, -⟩ := sound_of_reachable hu
    refine ⟨hu.step a hs, step_stranded hst hsound hs, ?_⟩
    by_cases hstray : u.Strayed c
    · exact Or.inl (step_strayed hsound hs hstray)
    · obtain ⟨x, hx, hopen⟩ := hst.isOpen hsound hstray
      exact Or.inr fun p hp => step_holds hsound hx hopen (hh.resolve_left hstray p hp) hs
  obtain ⟨ht, hrest⟩ := Machine.run_invariant keep ⟨hr, h, Or.inr fun _ => id⟩ hrun
  exact ⟨(sound_of_reachable ht).1, hrest⟩

/-- A run of genuine steps does not send on the connection what has only got the number of a closed `comfd`. -/
theorem run_not_strayed {as : List RequestAct} (hr : requestMachine.Reachable s) (h : ¬s.Strayed c)
    (hok : requestMachine.Steps (fun s a => s.genuine a = true) s as) (hrun : requestMachine.run s as = some t) :
    ¬t.Strayed c := by
  have keep : ∀ u a v, requestMachine.Reachable u ∧ ¬u.Strayed c → u.genuine a = true → requestMachine.step u a = some v →
      requestMachine.Reachable v ∧ ¬v.Strayed c := fun u a v ⟨hu, hno⟩ hg hs =>
    ⟨hu.step a hs, step_not_strayed (sound_of_reachable hu).1 hg hs hno⟩
  exact (hok.invariant keep ⟨hr, h⟩ hrun).2

/-- The process of a connection waits for the rest of its answer: the connection is open, a process holds it, and so do all
    that held it in `s`. -/
structure Waits (c : Nat) (s t : RequestState) : Prop where
  isOpen : ∃ x, t.conns c = some x ∧ x.IsOpen
  held : ∃ p, t.Holds p c
  kept : ∀ p, s.Holds p c → t.Holds p c

/-- A stranded connection stays stranded in every run: its process is never given the socket of the abstract name. It waits
    for ever, on a connection that keeps those that hold it from terminating, unless it is given what has only got the number
    of a closed `comfd`. -/
theorem stranded_forever (hr : requestMachine.Reachable s) (h : s.Stranded c) (as : List RequestAct)
    (hrun : requestMachine.run s as = some t) :
    t.Stranded c ∧ (t.Strayed c ∨ Waits c s t) ∧
    (¬s.Strayed c → requestMachine.Steps (fun s a => s.genuine a = true) s as → Waits c s t) := by
  obtain ⟨hsound, hstranded, hholds⟩ := run_stranded hr h hrun
  have hwaits : ¬t.Strayed c → Waits c s t := by
    intro hno
    obtain ⟨x, hx, hopen⟩ := hstranded.isOpen hsound hno
    obtain ⟨y, hy, hacc, -⟩ := hstranded
    obtain rfl : x = y := Option.some.inj (hx.symm.trans hy)
    exact ⟨⟨x, hx, hopen⟩, (hsound.conns c x hx).held hacc hopen, hholds.resolve_left hno⟩
  refine ⟨hstranded, ?_, fun hno hok => hwaits (run_not_strayed hr hno hok hrun)⟩
  by_cases hstray : t.Strayed c
  · exact Or.inl hstray
  · exact Or.inr (hwaits hstray)

/-- The steps of a process at the request of connection 2. -/
def serveHalf : List RequestAct := [.recv 0 2, .count 0, .writeShadow 0, .writeCom 0, .read 2]

/-- The first version holds the connection of a third process as it stops monitoring, and answers it by half. In the other
    run it has opened a socket under the number of its `comfd` before. -/
theorem stranded_forever_half : ∃ s t u, requestMachine.Reachable s ∧ s.Stranded 2 ∧
    requestMachine.run s serveHalf = some t ∧ t.Stranded 2 ∧ Waits 2 s t ∧
    requestMachine.run s (.reuse 0 true :: serveHalf) = some u ∧ u.Stranded 2 ∧ (u.Strayed 2 ∨ Waits 2 s u) := by
  obtain ⟨s, hs, hr, hstranded, hno⟩ := stranded_supersede
  obtain ⟨t, ht⟩ : ∃ t, requestMachine.run (start 8080 5) (supersede ++ serveHalf) = some t := ⟨_, rfl⟩
  obtain ⟨u, hu⟩ : ∃ u, requestMachine.run (start 8080 5) (supersede ++ .reuse 0 true :: serveHalf) = some u := ⟨_, rfl⟩
  have hok : requestMachine.Steps (fun s a => s.genuine a = true) (start 8080 5) (supersede ++ serveHalf) := by
    decide
  obtain ⟨hs, -⟩ := Machine.run_guard_iff.mp hs
  rw [Machine.run_append, hs, Option.bind_some] at ht hu
  have hhalf := stranded_forever hr.of_guard hstranded _ ht
  have hstray := stranded_forever hr.of_guard hstranded _ hu
  exact ⟨s, t, u, hr.of_guard, hstranded, ht, hhalf.1, hhalf.2.2 hno (hok.of_append hs), hu, hstray.1, hstray.2.1⟩

end RequestState
end OpenDSU
