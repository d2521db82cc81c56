import OpenDSU.Theorems.RequestSafety
import OpenDSU.Theorems.Listener

/-! The requests for the descriptors of a port, one system call a step, refine the port whose critical sections are its
steps: the answer of a port to a request happens in the section of the handler, before its messages are sent. This is so as
long as nothing is handed over that has only got the number of a closed `comfd`.

So what holds of a port in every order of its sections holds of the system calls: some process always listens. -/

namespace OpenDSU

/-- The task answers the request of connection `c`, which it has counted. -/
def Task.answers (c : Nat) : Task → Bool
  | .counted d => d == c
  | .half d => d == c
  | _ => false

/-- The `comfd` of a record of the port is the socket of the abstract name. -/
def Host.toRec (p : Nat) (o : Host) : Rec := { pid := p, pgid := o.pgid, sock := o.sock, comOpen := o.com == some .name }

namespace PortState
variable {b : PortState} {i k : Nat} {r : Rec} {y : Binder}

theorem step_serve (hr : b.recs[i]? = some r) (hy : b.binders[k]? = some y) (hp : y.phase = .asking) :
    b.step (.serve i k) = some { b with
      status := (answerSection b.status r.sock).1
      recs := b.recs.set i { r with sock := (answerSection b.status r.sock).2 }
      binders := if r.comOpen then b.binders.set k { y with phase := .answered } else b.binders } := by
  simp only [step, hr, hy, hp, ↓reduceIte]

theorem step_bindAnswered (hy : b.binders[k]? = some y) (hp : y.phase = .answered) (hport : 0 < b.port) :
    b.step (.bindAnswered k) = some (b.enterInherit k y) := by
  simp only [step, hy, hp, hport, ↓reduceIte]

theorem step_fork {pid child : Nat} (hrecs : ∀ r ∈ b.recs, r.pid ≠ child)
    (hbinders : ∀ y ∈ b.binders, y.pid ≠ child ∧ y.pid ≠ pid) :
    b.step (.fork pid child) = some { b with recs := b.recs ++ b.copies pid child } := by
  have h₁ : b.recs.any (·.pid == child) = false := by
    simpa [List.any_eq_false] using hrecs
  have h₂ : b.binders.any (fun y => y.pid == child || y.pid == pid) = false := by
    simpa [List.any_eq_false] using hbinders
  simp [step, h₁, h₂]

theorem step_monitor (hr : b.recs[i]? = some r) : b.step (.monitor i) = some { b with
    status := (monitorSection r.pgid b.status r.sock).1
    recs := b.recs.set i { r with
      sock := (monitorSection r.pgid b.status r.sock).2
      comOpen := r.comOpen && !r.sock.quits b.status } } := by
  simp only [step, hr]

theorem step_setLocked {locked : Bool} (hr : b.recs[i]? = some r) : b.step (.setLocked i locked) =
    some { b with recs := b.recs.set i { r with sock := { r.sock with locked := locked } } } := by
  simp only [step, hr]

theorem step_close (hr : b.recs[i]? = some r) (hc : r.comOpen = false) :
    b.step (.close i) = some { b with recs := b.recs.eraseIdx i } := by
  simp [step, hr, hc]

end PortState

namespace RequestState
open Function

/-- Both messages of the answer are sent, or will be. -/
def answered (s : RequestState) (c : Nat) (x : Conn) : Bool :=
  x.sent.length == 2 || x.taker.any fun p => (s.hosts p).any fun o => o.com == some .name && o.task.answers c

def toBinder (s : RequestState) (c : Nat) (x : Conn) : Binder :=
  { pid := c, pgid := x.pgid, phase := if s.answered c x then .answered else .asking }

/-- The records of the port. -/
def recTable (s : RequestState) (p : Nat) : Option Rec := (s.hosts p).map (Host.toRec p)

/-- The processes in `bind`. -/
def binderTable (s : RequestState) (c : Nat) : Option Binder :=
  (s.conns c).bind fun x => if x.stage = .entered then none else some (s.toBinder c x)

/-- The state of the port that the requests are at. -/
structure Refines (s : RequestState) (b : PortState) : Prop where
  port : b.port = s.port
  status : b.status = s.status
  leaked : b.leaked = 0
  recs : Keyed Rec.pid b.recs s.recTable
  binders : Keyed Binder.pid b.binders s.binderTable

/-- A superseded process exits: it closes nothing. -/
def Retires (b : PortState) (a : PortAct) : Prop :=
  ∃ i r, a = .close i ∧ b.recs[i]? = some r ∧ r.comOpen = false ∧ r.sock.monitoring = false

/-- The port stays as it is, or takes one step of a hand-over that completes. -/
def Follows (t : RequestState) (b : PortState) : Prop :=
  t.Refines b ∨ ∃ a b', (PortState.Ordinary a = true ∨ Retires b a) ∧ b.step a = some b' ∧ t.Refines b'

variable {s t : RequestState} {b b' : PortState} {p c : Nat} {o : Host} {x : Conn}

/-! ### Steps that the port does not see -/

theorem refines_same (h : s.Refines b) (hport : t.port = s.port) (hstatus : t.status = s.status)
    (hrec : ∀ p, t.recTable p = s.recTable p) (hbinder : ∀ c, t.binderTable c = s.binderTable c) : t.Refines b where
  port := h.port.trans hport.symm
  status := h.status.trans hstatus.symm
  leaked := h.leaked
  recs := h.recs.congr hrec
  binders := h.binders.congr hbinder

theorem recTable_setHost {o' : Host} (ht : t.hosts = update s.hosts p (some o')) :
    t.recTable = update s.recTable p (some (o'.toRec p)) := by
  funext q
  unfold recTable
  rw [ht]
  by_cases hq : q = p
  · subst hq
    simp
  · simp [hq]

/-- A process whose record stays as it is. -/
theorem recTable_same {o' : Host} (ho : s.hosts p = some o) (ht : t.hosts = update s.hosts p (some o'))
    (hrec : o'.toRec p = o.toRec p) (q : Nat) : t.recTable q = s.recTable q := by
  rw [recTable_setHost ht, hrec]
  by_cases hq : q = p
  · subst hq
    simp [recTable, ho]
  · simp [hq]

/-- A process that answers the same requests. -/
theorem answered_setHost {o' : Host} (ho : s.hosts p = some o) (ht : t.hosts = update s.hosts p (some o'))
    (hans : (o'.com == some .name && o'.task.answers c) = (o.com == some .name && o.task.answers c)) (x : Conn) :
    t.answered c x = s.answered c x := by
  unfold answered
  congr 1
  cases x.taker with
  | none => rfl
  | some q =>
    rw [ht]
    by_cases hq : q = p
    · subst hq
      simp [ho, hans]
    · simp [hq]

theorem binderTable_congr (hc : t.conns c = s.conns c)
    (hans : ∀ x, s.conns c = some x → t.answered c x = s.answered c x) : t.binderTable c = s.binderTable c := by
  unfold binderTable
  rw [hc]
  cases hx : s.conns c with
  | none => rfl
  | some x => simp [toBinder, hans x hx]

theorem binderTable_of (hx : s.conns c = some x) :
    s.binderTable c = if x.stage = .entered then none else some (s.toBinder c x) := by
  simp [binderTable, hx]

/-- A step on a connection that the port does not see. -/
theorem follows_setConn {x' : Conn} (h : s.Refines b) (hx : s.conns c = some x)
    (hentered : x'.stage = .entered ↔ x.stage = .entered)
    (hpgid : x'.pgid = x.pgid) (htk : x'.taker = x.taker) (hsent : x'.sent = x.sent) : (s.setConn c x').Follows b := by
  refine Or.inl (refines_same h rfl rfl (fun _ => rfl) fun d => ?_)
  by_cases hd : d = c
  · subst hd
    rw [binderTable_of hx, binderTable_of (update_self ..)]
    simp [hentered, toBinder, answered, htk, hsent, hpgid]
  · exact binderTable_congr (update_of_ne hd ..) fun _ _ => rfl

/-- A step of a process on a connection that the port does not see. -/
theorem follows_setBoth {o' : Host} {x' : Conn} (h : s.Refines b) (ho : s.hosts p = some o) (hx : s.conns c = some x)
    (hrec : o'.toRec p = o.toRec p)
    (hans : ∀ d, d ≠ c → (o'.com == some .name && o'.task.answers d) = (o.com == some .name && o.task.answers d))
    (hentered : x'.stage = .entered ↔ x.stage = .entered) (hpgid : x'.pgid = x.pgid)
    (hmine : ((s.setHost p o').setConn c x').answered c x' = s.answered c x) :
    ((s.setHost p o').setConn c x').Follows b := by
  refine Or.inl (refines_same h rfl rfl (recTable_same ho rfl hrec) fun d => ?_)
  by_cases hd : d = c
  · subst hd
    rw [binderTable_of hx, binderTable_of (update_self ..)]
    simp [hentered, toBinder, hmine, hpgid]
  · exact binderTable_congr (update_of_ne hd ..) fun y _ => answered_setHost ho rfl (hans d hd) y

/-- A step of a process alone that the port does not see. -/
theorem follows_setHost {o' : Host} (h : s.Refines b) (ho : s.hosts p = some o) (hrec : o'.toRec p = o.toRec p)
    (hans : ∀ d, (o'.com == some .name && o'.task.answers d) = (o.com == some .name && o.task.answers d)) :
    (s.setHost p o').Follows b :=
  Or.inl (refines_same h rfl rfl (recTable_same ho rfl hrec) fun d =>
    binderTable_congr rfl fun x _ => answered_setHost ho rfl (hans d) x)

theorem follows_accept (h : s.Refines b) (hs : s.step (.accept p c) = some t) : t.Follows b := by
  obtain ⟨o, x, ho, hx, -, -, -, -, -, rfl⟩ := accept_inv hs
  refine follows_setBoth h ho hx rfl (fun _ _ => rfl) Iff.rfl rfl ?_
  exact answered_setHost ho (by rfl) (by rfl) x

theorem follows_recv (h : s.Refines b) (hsound : s.Sound) (hs : s.step (.recv p c) = some t) : t.Follows b := by
  obtain ⟨o, x, ho, hx, hi, -, ⟨hr, rfl⟩ | ⟨-, -, rfl⟩⟩ := recv_inv hs
  · have htk := (hsound.conns c x hx).untaken_of_request hr
    refine follows_setBoth h ho hx rfl (fun d _ => by simp [Task.answers, hi]) Iff.rfl rfl ?_
    simp [answered, htk, Task.answers]
  · exact follows_setHost h ho rfl fun _ => rfl

theorem follows_writeShadow (h : s.Refines b) (hsound : s.Sound) (hs : s.step (.writeShadow p) = some t) :
    t.Follows b := by
  obtain ⟨o, c, x, ho, htask, hx, rfl⟩ := writeShadow_inv hs
  obtain ⟨-, x', hx', htk, hsent⟩ := (hsound.hosts p o ho).task c 0 (by rw [htask]; rfl)
  obtain rfl : x = x' := Option.some.inj (hx.symm.trans hx')
  refine follows_setBoth h ho hx rfl (fun d _ => by simp [Task.answers, htask]) Iff.rfl rfl ?_
  simp [answered, htk, ho, hsent, htask, Task.answers, shadowOf]

theorem follows_writeCom (h : s.Refines b) (hsound : s.Sound) (hg : s.genuine (.writeCom p) = true)
    (hs : s.step (.writeCom p) = some t) : t.Follows b := by
  obtain ⟨o, c, x, ho, htask, hx, hcase⟩ := writeCom_inv hs
  obtain ⟨-, x', hx', htk, hsent⟩ := (hsound.hosts p o ho).task c 1 (by rw [htask]; rfl)
  obtain rfl : x = x' := Option.some.inj (hx.symm.trans hx')
  rcases hcase with ⟨com, hcom, rfl⟩ | ⟨hcom, rfl⟩
  · have hname : com = .name := by
      rcases (hsound.hosts p o ho).com com hcom with hname | hother
      · exact hname
      · simp [genuine, ho, hcom, hother] at hg
    refine follows_setBoth h ho hx rfl (fun d hd => by simp [Task.answers, htask, Ne.symm hd]) Iff.rfl rfl ?_
    simp [answered, htk, ho, hsent, htask, hcom, hname, Task.answers, shadowOf]
  · exact follows_setHost h ho rfl fun d => by simp [hcom]

/-! ### Steps of the port -/

theorem Refines.rec_get (h : s.Refines b) (ho : s.hosts p = some o) : ∃ i : Nat, b.recs[i]? = some (o.toRec p) :=
  h.recs.get (by simp [recTable, ho, Host.toRec])

theorem Refines.binder_get (h : s.Refines b) (hx : s.conns c = some x) (hne : x.stage ≠ .entered) :
    ∃ k : Nat, b.binders[k]? = some (s.toBinder c x) :=
  h.binders.get (by
    change s.binderTable c = _
    rw [binderTable_of hx, if_neg hne])

/-- The tables at a number that no process has yet. -/
theorem Refines.fresh (hsound : s.Sound) : s.recTable s.pids = none ∧ s.binderTable s.pids = none := by
  constructor
  · simp [recTable, hsound.fresh_host (Nat.le_refl _)]
  · simp [binderTable, hsound.fresh_conn (Nat.le_refl _)]

/-- A record is stored. -/
theorem Refines.store {o' : Host} {r : Rec} {i : Nat} (h : s.Refines b) (hi : b.recs[i]? = some (o.toRec p))
    (ht : t.hosts = update s.hosts p (some o')) (hr : r = o'.toRec p) : Keyed Rec.pid (b.recs.set i r) t.recTable := by
  subst hr
  exact (h.recs.set (b := o'.toRec p) hi rfl).congr fun q => by rw [recTable_setHost ht]; rfl

theorem follows_connect {pgid : Int} (h : s.Refines b) (hsound : s.Sound) (hs : s.step (.connect pgid) = some t) :
    t.Follows b := by
  obtain ⟨hname, rfl⟩ := connect_inv hs
  have hheld : b.nameHeld = true := by
    obtain ⟨p, -, hp⟩ := List.any_eq_true.mp hname
    cases ho : s.hosts p with
    | none => simp [ho] at hp
    | some o =>
      simp only [ho, Option.any_some, beq_iff_eq] at hp
      obtain ⟨i, hi⟩ := h.rec_get ho
      have : b.recs.any (·.comOpen) = true :=
        List.any_eq_true.mpr ⟨_, List.mem_of_getElem? hi, by simp [Host.toRec, hp]⟩
      simp [PortState.nameHeld, this]
  refine Or.inr ⟨.request s.pids pgid, _, Or.inl rfl, by simp only [PortState.step, hheld]; rfl, ?_⟩
  exact {
    port := h.port
    status := h.status
    leaked := h.leaked
    recs := h.recs
    binders := by
      refine (h.binders.append (Refines.fresh hsound).2).congr fun d => ?_
      by_cases hd : d = s.pids
      · subst hd
        rw [update_self, binderTable_of (update_self ..)]
        simp [Conn.new, toBinder, answered]
      · rw [update_of_ne hd]
        exact binderTable_congr (update_of_ne hd ..) fun _ _ => rfl }

theorem follows_count (h : s.Refines b) (hsound : s.Sound) (hs : s.step (.count p) = some t) : t.Follows b := by
  obtain ⟨o, c, ho, htask, rfl⟩ := count_inv hs
  obtain ⟨-, x, hx, htk, hsent⟩ := (hsound.hosts p o ho).task c 0 (by rw [htask]; rfl)
  have hc := hsound.conns c x hx
  have hne : x.stage ≠ .entered := by
    intro hst
    obtain ⟨com, -, -, q, -, hfull⟩ := hc.delivered (hc.done (by simp [Conn.IsOpen, hst])).1
    rw [hsent] at hfull
    cases hfull
  obtain ⟨i, hi⟩ := h.rec_get ho
  obtain ⟨k, hk⟩ := h.binder_get hx hne
  have hasking : s.toBinder c x = { pid := c, pgid := x.pgid, phase := .asking } := by
    simp [toBinder, answered, htk, ho, hsent, htask, Task.answers, shadowOf]
  rw [hasking] at hk
  refine Or.inr ⟨.serve i k, _, Or.inl rfl, PortState.step_serve hi hk rfl, ?_⟩
  have hother : ∀ d, d ≠ c → ∀ y, answered { s.setHost p
      { o with sock := (answerSection s.status o.sock).2, task := .counted c } with
        status := (answerSection s.status o.sock).1 } d y = s.answered d y := fun d hd y =>
    answered_setHost ho (by rfl) (by simp [Task.answers, htask, Ne.symm hd]) y
  exact {
    port := h.port
    status := by simp [h.status, Host.toRec]
    leaked := h.leaked
    recs := h.store hi rfl (by simp [h.status, Host.toRec])
    binders := by
      cases hcom : o.com == some .name
      · simp only [Host.toRec, hcom, Bool.false_eq_true, ↓reduceIte]
        refine h.binders.congr fun d => binderTable_congr rfl fun y _ => ?_
        exact answered_setHost ho (by rfl) (by simp [hcom]) y
      · simp only [Host.toRec, hcom, ↓reduceIte]
        refine (h.binders.set (b := { pid := c, pgid := x.pgid, phase := .answered }) hk rfl).congr fun d => ?_
        by_cases hd : d = c
        · subst hd
          rw [update_self]
          refine Eq.trans (binderTable_of (x := x) hx) ?_
          simp [hne, toBinder, answered, htk, hcom, Task.answers]
        · rw [update_of_ne hd]
          exact binderTable_congr rfl fun y _ => hother d hd y }

/-- A process at no request changes its record. -/
theorem follows_store {o' : Host} {a : PortAct} {r : Rec} {i : Nat} (h : s.Refines b) (ho : s.hosts p = some o)
    (hi : o.task = .idle) (hi' : o'.task = .idle) (ht : t = { s.setHost p o' with status := t.status })
    (hget : b.recs[i]? = some (o.toRec p)) (hr : r = o'.toRec p) (ha : PortState.Ordinary a = true)
    (hs : b.step a = some { b with status := t.status, recs := b.recs.set i r }) : t.Follows b := by
  have hhosts : t.hosts = update s.hosts p (some o') := by rw [ht]; rfl
  have hconns : t.conns = s.conns := by rw [ht]; rfl
  refine Or.inr ⟨a, _, Or.inl ha, hs, ?_⟩
  exact {
    port := by rw [ht]; exact h.port
    status := rfl
    leaked := h.leaked
    recs := h.store hget hhosts hr
    binders := h.binders.congr fun d => binderTable_congr (by rw [hconns]) fun y _ =>
      answered_setHost ho hhosts (by simp [Task.answers, hi, hi']) y }

theorem follows_monitor (h : s.Refines b) (hs : s.step (.monitor p) = some t) : t.Follows b := by
  obtain ⟨o, ho, hi, rfl⟩ := monitor_inv hs
  obtain ⟨i, hget⟩ := h.rec_get ho
  refine follows_store (a := .monitor i) h ho hi ?_ rfl hget rfl rfl ?_
  · exact hi
  · rw [PortState.step_monitor hget, h.status]
    congr 4
    cases hq : o.sock.quits s.status <;> simp [Host.toRec, hq]

theorem follows_setLocked {locked : Bool} (h : s.Refines b) (hs : s.step (.setLocked p locked) = some t) :
    t.Follows b := by
  obtain ⟨o, ho, hi, rfl⟩ := setLocked_inv hs
  obtain ⟨i, hget⟩ := h.rec_get ho
  refine follows_store (a := .setLocked i locked) h ho hi ?_ rfl hget rfl rfl ?_
  · exact hi
  · rw [PortState.step_setLocked hget]
    simp [h.status, Host.toRec]

theorem follows_inherit (h : s.Refines b) (hsound : s.Sound) (hun : s.Unstrayed) (hport : 0 < s.port)
    (hs : s.step (.inherit c) = some t) : t.Follows b := by
  obtain ⟨x, shadow, com, hx, hst, hgot, rfl⟩ := inherit_inv hs
  have hc := hsound.conns c x hx
  obtain ⟨hgot', q, -, hsent⟩ := hun.delivered hc hx (by rw [hgot]; rfl)
  obtain ⟨-, htail⟩ := List.cons.inj (hgot.symm.trans hgot')
  obtain ⟨rfl, -⟩ := List.cons.inj htail
  have hne : x.stage ≠ .entered := by simp [hst]
  have hnone := hc.alone hne
  obtain ⟨k, hk⟩ := h.binder_get hx hne
  have hans : s.toBinder c x = { pid := c, pgid := x.pgid, phase := .answered } := by
    simp [toBinder, answered, hsent, answerOf, shadowOf]
  rw [hans] at hk
  refine Or.inr ⟨.bindAnswered k, _, Or.inl rfl, PortState.step_bindAnswered hk rfl (by rw [h.port]; exact hport), ?_⟩
  exact {
    port := h.port
    status := h.status
    leaked := h.leaked
    recs := by
      have hfree : s.recTable c = none := by simp [recTable, hnone]
      refine (h.recs.append (a := { pid := c, pgid := x.pgid, sock := _, comOpen := true }) hfree).congr fun d => ?_
      rw [recTable_setHost rfl, h.status]
      simp only [PortState.fresh, h.port]
      rfl
    binders := by
      refine (h.binders.eraseIdx hk).congr fun d => ?_
      by_cases hd : d = c
      · subst hd
        rw [update_self]
        refine (binderTable_of (update_self ..)).trans ?_
        simp
      · rw [update_of_ne hd]
        refine binderTable_congr (update_of_ne hd ..) fun y _ => ?_
        unfold answered
        congr 1
        cases y.taker with
        | none => rfl
        | some q =>
          by_cases hq : q = c
          · subst hq
            simp [hnone, Task.answers]
          · simp [hq] }

theorem follows_fork (h : s.Refines b) (hsound : s.Sound) (hs : s.step (.fork p) = some t) : t.Follows b := by
  obtain ⟨o, ho, hi, rfl⟩ := fork_inv hs
  obtain ⟨i, hget⟩ := h.rec_get ho
  have hp := (hsound.hosts p o ho).started
  have hrecs : ∀ r ∈ b.recs, r.pid ≠ s.pids := by
    intro r hr hpid
    have := (h.recs.mem r).mp hr
    rw [hpid, (Refines.fresh hsound).1] at this
    cases this
  have hbinders : ∀ y ∈ b.binders, y.pid ≠ s.pids ∧ y.pid ≠ p := by
    intro y hy
    have hmem := (h.binders.mem y).mp hy
    refine ⟨fun hpid => ?_, fun hpid => ?_⟩
    · rw [hpid, (Refines.fresh hsound).2] at hmem
      cases hmem
    · -- A process with a record is not in `bind`.
      rw [hpid] at hmem
      cases hx : s.conns p with
      | none => simp [binderTable, hx] at hmem
      | some x =>
        rw [binderTable_of hx] at hmem
        split at hmem
        · cases hmem
        · rename_i hne
          rw [(hsound.conns p x hx).alone hne] at ho
          cases ho
  refine Or.inr ⟨.fork p s.pids, _, Or.inl rfl, PortState.step_fork hrecs hbinders, ?_⟩
  have hcopies : b.copies p s.pids = [o.toRec s.pids] := by
    unfold PortState.copies
    rw [show (fun r : Rec => r.pid == p) = fun r => r.pid == (o.toRec p).pid from rfl,
      h.recs.filter_key (List.mem_of_getElem? hget)]
    rfl
  exact {
    port := h.port
    status := h.status
    leaked := h.leaked
    recs := by
      simp only [hcopies]
      refine (h.recs.append (a := o.toRec s.pids) (Refines.fresh hsound).1).congr fun d => ?_
      rw [recTable_setHost (show _ = update s.hosts s.pids (some o) from rfl)]
      rfl
    binders := h.binders.congr fun d => binderTable_congr rfl fun y _ => by
      unfold answered
      congr 1
      cases y.taker with
      | none => rfl
      | some q =>
        by_cases hq : q = s.pids
        · subst hq
          simp [hsound.fresh_host (Nat.le_refl _), hi, Task.answers]
        · simp [hq] }

theorem follows_exit (h : s.Refines b) (hsound : s.Sound) (hs : s.step (.exit p) = some t) : t.Follows b := by
  obtain ⟨o, ho, hi, -, hm, -, rfl⟩ := exit_inv hs
  obtain ⟨i, hget⟩ := h.rec_get ho
  have hcom : (o.toRec p).comOpen = false := by simpa [Host.toRec] using (hsound.hosts p o ho).closed hm
  refine Or.inr ⟨.close i, _, Or.inr ⟨i, _, rfl, hget, hcom, hm⟩, PortState.step_close hget hcom, ?_⟩
  exact {
    port := h.port
    status := h.status
    leaked := h.leaked
    recs := by
      refine (h.recs.eraseIdx hget).congr fun d => ?_
      by_cases hd : d = p
      · subst hd
        simp [recTable, Host.toRec]
      · simp [recTable, Host.toRec, hd]
    binders := h.binders.congr fun d => binderTable_congr rfl fun y _ => by
      unfold answered
      congr 1
      cases y.taker with
      | none => rfl
      | some q =>
        by_cases hq : q = p
        · subst hq
          simp [ho, hi, Task.answers]
        · simp [hq] }

/-! ### Runs -/

theorem step_port {a : RequestAct} (hs : s.step a = some t) : t.port = s.port := by
  cases a with
  | connect =>
    obtain ⟨-, rfl⟩ := connect_inv hs
    rfl
  | send =>
    obtain ⟨x, -, -, rfl⟩ := send_inv hs
    rfl
  | accept =>
    obtain ⟨o, x, -, -, -, -, -, -, -, rfl⟩ := accept_inv hs
    rfl
  | recv =>
    obtain ⟨o, x, -, -, -, -, ⟨-, rfl⟩ | ⟨-, -, rfl⟩⟩ := recv_inv hs <;> rfl
  | count =>
    obtain ⟨o, c, -, -, rfl⟩ := count_inv hs
    rfl
  | writeShadow =>
    obtain ⟨o, c, x, -, -, -, rfl⟩ := writeShadow_inv hs
    rfl
  | writeCom =>
    obtain ⟨o, c, x, -, -, -, ⟨com, -, rfl⟩ | ⟨-, rfl⟩⟩ := writeCom_inv hs <;> rfl
  | read =>
    obtain ⟨x, m, -, -, -, -, rfl⟩ := read_inv hs
    rfl
  | hangUp =>
    obtain ⟨x, -, -, -, rfl⟩ := hangUp_inv hs
    rfl
  | inherit =>
    obtain ⟨x, shadow, com, -, -, -, rfl⟩ := inherit_inv hs
    rfl
  | fork =>
    obtain ⟨o, -, -, rfl⟩ := fork_inv hs
    rfl
  | monitor =>
    obtain ⟨o, -, -, rfl⟩ := monitor_inv hs
    rfl
  | setLocked =>
    obtain ⟨o, -, -, rfl⟩ := setLocked_inv hs
    rfl
  | reuse =>
    obtain ⟨o, -, -, -, -, rfl⟩ := reuse_inv hs
    rfl
  | exit =>
    obtain ⟨o, -, -, -, -, -, rfl⟩ := exit_inv hs
    rfl

theorem step_follows {a : RequestAct} (h : s.Refines b) (hsound : s.Sound) (hun : s.Unstrayed) (hport : 0 < s.port)
    (hg : s.genuine a = true) (hs : s.step a = some t) : t.Follows b := by
  cases a with
  | connect => exact follows_connect h hsound hs
  | send c =>
    obtain ⟨x, hx, hst, rfl⟩ := send_inv hs
    exact follows_setConn h hx (by simp [hst]) rfl rfl rfl
  | accept => exact follows_accept h hs
  | recv => exact follows_recv h hsound hs
  | count => exact follows_count h hsound hs
  | writeShadow => exact follows_writeShadow h hsound hs
  | writeCom => exact follows_writeCom h hsound hg hs
  | read c =>
    obtain ⟨x, m, hx, -, -, -, rfl⟩ := read_inv hs
    exact follows_setConn h hx Iff.rfl rfl rfl rfl
  | hangUp c =>
    obtain ⟨x, hx, hst, -, rfl⟩ := hangUp_inv hs
    exact follows_setConn h hx (by simp [hst]) rfl rfl rfl
  | inherit => exact follows_inherit h hsound hun hport hs
  | fork => exact follows_fork h hsound hs
  | monitor => exact follows_monitor h hs
  | setLocked => exact follows_setLocked h hs
  | reuse p opened =>
    obtain ⟨o, ho, hi, -, hcom, rfl⟩ := reuse_inv hs
    refine follows_setHost h ho ?_ fun d => by simp [hi, Task.answers]
    cases opened <;> simp [Host.toRec, hcom]
  | exit => exact follows_exit h hsound hs

/-- A superseded process that exits leaves the port with its listener. -/
theorem listening_retires {a : PortAct} (h : b.Listening) (ha : Retires b a) (hs : b.step a = some b') :
    b'.Listening ∧ b'.Served := by
  obtain ⟨i, r, rfl, hr, hcom, hm⟩ := ha
  rw [PortState.step_close hr hcom] at hs
  obtain rfl := Option.some.inj hs
  have hne : b.recs ≠ [] := List.ne_nil_of_mem (List.mem_of_getElem? hr)
  have hsub : ∀ x ∈ b.recs.eraseIdx i, x ∈ b.recs := fun x hx => List.mem_of_mem_eraseIdx hx
  have hserved : ∃ x ∈ b.recs.eraseIdx i, x.sock.monitoring = true ∧ x.sock.version = b.status.version := by
    obtain ⟨x, hx, hxm, hxv⟩ := h.served hne
    rcases (mem_iff_mem_eraseIdx hr).mp hx with rfl | hx
    · rw [hm] at hxm
      cases hxm
    · exact ⟨x, hx, hxm, hxv⟩
  refine ⟨?_, hserved⟩
  exact {
    com := fun x hx => h.com x (hsub x hx)
    served := fun _ => hserved
    ahead := fun x hx => h.ahead x (hsub x hx)
    named := fun _ => h.named hne
    single := h.single
    answered := fun he => by
      obtain ⟨x, hx, -⟩ := hserved
      rw [show b.recs.eraseIdx i = [] from he] at hx
      cases hx
    zero := fun h0 _ => by
      obtain ⟨hz, hall⟩ := h.zero h0 hne
      exact ⟨hz, fun x hx => hall x (hsub x hx)⟩ }

theorem ordinary_recs {a : PortAct} (ha : PortState.Ordinary a = true) (hs : b.step a = some b') (hne : b.recs ≠ []) :
    b'.recs ≠ [] := by
  have hset : ∀ (i : Nat) (r : Rec), b.recs.set i r ≠ [] := fun i r => by simpa [List.set_eq_nil_iff] using hne
  have happ : ∀ l : List Rec, b.recs ++ l ≠ [] := fun l => by simp [hne]
  cases a with
  | claimName =>
    obtain ⟨-, rfl⟩ := PortState.claimName_inv hs
    exact hne
  | request =>
    obtain ⟨-, rfl⟩ := PortState.request_inv hs
    exact hne
  | bindFirst =>
    obtain ⟨y, -, -, rfl⟩ := PortState.bindFirst_inv hs
    exact happ _
  | serve =>
    obtain ⟨r, y, -, -, -, rfl⟩ := PortState.serve_inv hs
    exact hset _ _
  | bindAnswered =>
    obtain ⟨y, -, -, ⟨-, rfl⟩ | ⟨-, rfl⟩⟩ := PortState.bindAnswered_inv hs <;> exact happ _
  | bindFallback => cases ha
  | fork =>
    obtain rfl := PortState.fork_inv hs
    exact happ _
  | monitor =>
    obtain ⟨r, -, rfl⟩ := PortState.monitor_inv hs
    exact hset _ _
  | setLocked =>
    obtain ⟨r, -, rfl⟩ := PortState.setLocked_inv hs
    exact hset _ _
  | close => cases ha
  | closeCom => cases ha

/-- The port that the requests are at, which some process serves. -/
structure At (s : RequestState) (b : PortState) : Prop where
  refines : s.Refines b
  listening : b.Listening
  served : b.Served

theorem At.listener (h : s.At b) : ∃ p o, s.hosts p = some o ∧ o.sock.monitoring = true ∧
    o.sock.version = s.status.version ∧ o.com = some .name := by
  obtain ⟨r, hr, hm, hv⟩ := h.served
  have htab := (h.refines.recs.mem r).mp hr
  simp only [recTable, Option.map_eq_some_iff] at htab
  obtain ⟨o, ho, hrec⟩ := htab
  have hcom := h.listening.com r hr hm
  rw [← hrec] at hm hv hcom
  exact ⟨r.pid, o, ho, hm, hv.trans (congrArg Status.version h.refines.status), by simpa [Host.toRec] using hcom⟩

theorem At.step {a : RequestAct} (h : s.At b) (hsound : s.Sound) (hun : s.Unstrayed) (hport : 0 < s.port)
    (hg : s.genuine a = true) (hs : s.step a = some t) : ∃ as b', portMachine.run b as = some b' ∧ t.At b' := by
  rcases step_follows h.refines hsound hun hport hg hs with hr | ⟨a, b', ha, hstep, hr⟩
  · exact ⟨[], b, rfl, hr, h.listening, h.served⟩
  · have hne : b.recs ≠ [] := by
      obtain ⟨r, hr, -⟩ := h.served
      exact List.ne_nil_of_mem hr
    have hboth : b'.Listening ∧ b'.Served := by
      rcases ha with ha | ha
      · have hl := PortState.step_listening h.listening ha hstep
        exact ⟨hl, hl.served (ordinary_recs ha hstep hne)⟩
      · exact listening_retires h.listening ha hstep
    exact ⟨[a], b', by simp [Machine.run, portMachine, hstep], hr, hboth.1, hboth.2⟩

/-- The first version has bound its port. -/
def started (port : Nat) (pgid : Int) : PortState where
  port := port
  status := (bindFirstSection pgid dsuSocketListInit).1
  recs := [{
    pid := 0
    pgid := pgid
    sock := (bindFirstSection pgid { dsuSocketListInit with port := port }).2
    comOpen := true }]
  binders := []
  leaked := 0

theorem at_start (port : Nat) (pgid : Int) : (start port pgid).At (started port pgid) := by
  have hserved : (started port pgid).Served := ⟨_, List.mem_singleton_self _, rfl, rfl⟩
  refine ⟨?_, ?_, hserved⟩
  · exact {
      port := rfl
      status := rfl
      leaked := rfl
      recs := by
        refine (Keyed.nil.append (a := (started port pgid).recs.head (by simp [started])) rfl).congr fun p => ?_
        by_cases hp : p = 0
        · subst hp
          rfl
        · simp [recTable, start, started, hp]
      binders := Keyed.nil }
  · constructor <;> simp [started, bindFirstSection]
    exact hserved

theorem at_of_reachable (h : genuineMachine.Reachable s) :
    ∃ b, portMachine.Reachable b ∧ s.At b ∧ 0 < s.port := by
  induction h with
  | init h =>
    obtain ⟨port, pgid, hport, rfl⟩ := h
    refine ⟨started port pgid, ?_, at_start port pgid, hport⟩
    exact .of_run [.claimName 0 pgid, .bindFirst 0] (.init (s := .unused port) ⟨rfl, rfl, rfl⟩) rfl
  | step a hr hs ih =>
    obtain ⟨b, hb, hat, hport⟩ := ih
    obtain ⟨hg, hs⟩ := Machine.guard_step_iff.mp hs
    obtain ⟨as, b', hrun, hat'⟩ := hat.step (sound_of_reachable hr.of_guard).1 (unstrayed_of_reachable hr) hport hg hs
    exact ⟨b', .of_run as hb hrun, hat', by rw [step_port hs]; exact hport⟩

/-- Where nothing is handed over that has only got the number of a closed `comfd`, every reachable state is one of the port,
    in which some process listens, and every system call leaves the port as it is or takes one of its steps. -/
theorem requests_refine (h : genuineMachine.Reachable s) :
    ∃ b, portMachine.Reachable b ∧ s.Refines b ∧
      (∃ p o, s.hosts p = some o ∧ o.sock.monitoring = true ∧ o.sock.version = s.status.version ∧
        o.com = some .name) ∧
      ∀ a t, genuineMachine.step s a = some t → t.Follows b := by
  obtain ⟨b, hb, hat, hport⟩ := at_of_reachable h
  refine ⟨b, hb, hat.refines, hat.listener, fun a t hs => ?_⟩
  obtain ⟨hg, hs⟩ := Machine.guard_step_iff.mp hs
  exact step_follows hat.refines (sound_of_reachable h.of_guard).1 (unstrayed_of_reachable h) hport hg hs

/-- The first version has stopped monitoring with half an answer given, and the second monitors; another process of the first
    has opened a socket under the number of its `comfd`. -/
theorem requests_refine_superseded : ∃ s, genuineMachine.Reachable s ∧
    (∃ o, s.hosts 0 = some o ∧ o.sock.monitoring = false ∧ o.task = .half 2) ∧
    (∃ o, s.hosts 3 = some o ∧ o.com = some .other) ∧
    ∃ b, portMachine.Reachable b ∧ s.Refines b ∧
      (∃ p o, s.hosts p = some o ∧ o.sock.monitoring = true ∧ o.sock.version = s.status.version ∧
        o.com = some .name) ∧
      ∀ a t, genuineMachine.step s a = some t → t.Follows b := by
  have hr := Machine.Reachable.of_run
    [.connect 7, .send 1, .accept 0 1, .recv 0 1, .count 0, .writeShadow 0, .writeCom 0, .read 1, .read 1, .hangUp 1,
      .inherit 1, .connect 7, .send 2, .accept 0 2, .fork 0, .monitor 1, .monitor 0, .monitor 3, .reuse 3 true, .recv 0 2,
      .count 0, .writeShadow 0]
    (.init (M := genuineMachine) ⟨8080, 5, by decide, rfl⟩) rfl
  exact ⟨_, hr, ⟨_, rfl, rfl, rfl⟩, ⟨_, rfl, rfl⟩, requests_refine hr⟩

end RequestState
end OpenDSU
