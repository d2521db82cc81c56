import OpenDSU.Theorems.EpollCount
import OpenDSU.Theorems.PollCount
import OpenDSU.Theorems.SelectTransparent

/-! Whether a wait that returns 0 has timed out.

Descriptors of the library wake the kernel wait. `select` and `ppoll` subtract them, and `epoll_wait` drops their
events; what is left may be nothing. Only a `select` without a timeout waits again. -/

namespace OpenDSU

/-! ### The property -/

def Call.timeout : Call → Option Nat
  | .select _ _ timeout _ => timeout
  | .ppoll _ timeout => timeout
  | .epollWait _ _ _ timeout => timeout
  | _ => none

def Call.isEpollWait : Call → Bool
  | .epollWait .. => true
  | _ => false

variable {K : Kernel} {p : Proc} {call : Call} {nfds : Int} {sets found : FdSets} {timeout : Option Nat} {rounds : Nat}

/-- The events that the kernel wait of an `epoll_wait` reports. -/
def Proc.reported (K : Kernel) (p : Proc) (epfd : Int) (maxevents : Nat) (timeout : Option Nat) : Option (List Event) :=
  let wait := p.inEpollWait K epfd
  if wait.exited then none else (wait.world.epollWait K epfd maxevents timeout).1

/-- The wait returns 0; a `ppoll` may do so by what lies behind the caller's array. -/
def ReturnsZero (K : Kernel) (p : Proc) : Call → Prop
  | .select nfds sets timeout rounds => ∃ q out, select K nfds sets timeout rounds p = some (q, .returned 0 out)
  | .ppoll fds timeout => ∃ rest out, (ppollIn K fds rest timeout p).2 = .returned 0 out
  | .epollWait epfd events maxevents timeout => ∃ out, (epollWait K epfd events maxevents timeout p).2 = .returned 0 out
  | _ => False

/-- The last kernel wait of a call, if it does not fail: the timeout that it is given, and what it returns. -/
def lastWait (K : Kernel) (p : Proc) : Call → Option (Option Nat × Nat)
  | .select nfds sets timeout rounds => (p.selected K nfds sets timeout rounds).map fun a =>
    ((selectAsk K a.1 nfds sets timeout).timeout, a.2.size)
  | .ppoll fds timeout => (p.polled K fds timeout).map fun a => (timeout, readyFrom a.1 0 a.2)
  | .epollWait epfd _ maxevents timeout => (p.reported K epfd maxevents timeout).map fun es => (timeout, es.length)
  | _ => none

/-- A call returns 0 only if its last kernel wait has the timeout of the caller and returns 0. -/
def RealTimeout (K : Kernel) (p : Proc) (call : Call) : Prop :=
  ReturnsZero K p call → lastWait K p call = some (call.timeout, 0)

/-- Without a timeout such a call returns 0 only if a kernel wait without a timeout does. -/
theorem RealTimeout.not_returnsZero (h : RealTimeout K p call) (hnone : call.timeout = none)
    (hwait : lastWait K p call ≠ some (none, 0)) : ¬ReturnsZero K p call := fun hz => hwait (hnone ▸ h hz)

/-! ### The condition -/

/-- The pass before the wait of `select` sees at the record that its port is in transfer. -/
def DsuSocket.seesTransfer (K : Kernel) (r : DsuSocket) (s : SelectPass) : Bool :=
  fdIsset r.fd s.readfds && r.monitoring && K.semWait s.world && decide (0 < (K.status s.world r.port).transfer)

/-- The pass sees a transfer at one of the records. -/
def Proc.SeesTransfer (K : Kernel) (p : Proc) (nfds : Int) (sets : FdSets) : Prop :=
  ∃ pre r post, p.binds = pre ++ r :: post ∧
    r.seesTransfer K (walk (dsuPreSelect K) pre (p.pass sets.read nfds)).2 = true

/-- The number of ready descriptors that no record takes. -/
def FdSets.untaken (binds : List DsuSocket) (found : FdSets) : Nat :=
  ((found.read.getD ∅).filter (¬Taken binds ·)).card + (found.write.getD ∅).card + (found.except.getD ∅).card

/-- A wake-up leaves something to return. A `select` with a timeout that has only what `correction` subtracts has
    found nothing at all, with its timeout not replaced; the records of a `ppoll` do not subtract all that is ready;
    one of the events of an `epoll_wait` survives. -/
def WaitsOut (K : Kernel) (p : Proc) : Call → Prop
  | .select nfds sets timeout rounds => timeout ≠ none → 0 < rounds →
    ∀ start found, p.selected K nfds sets timeout rounds = some (start, found) →
      (found.untaken start.binds : Int) = start.correction →
        found.size = 0 ∧ (start.SeesTransfer K nfds sets → timeout = some 100)
  | .ppoll fds timeout => ∀ a ∈ p.polled K fds timeout,
    readyFrom a.1 0 a.2 = p.binds.length * readyFrom a.1 fds.length a.2 → readyFrom a.1 0 a.2 = 0
  | .epollWait epfd events maxevents timeout => ∀ es ∈ p.reported K epfd maxevents timeout, es ≠ [] →
    let wait := p.inEpollWait K epfd
    ∃ e ∈ es, Survives wait.binds wait.world (epollWait K epfd events maxevents timeout p).1.world e
  | _ => True

/-! ### `select` -/

theorem dsuPreSelect_transfer (r : DsuSocket) (s : SelectPass) :
    (dsuPreSelect K r s).2.transfer = (s.transfer || r.seesTransfer K s) := by
  have hmonitor : (tryMonitor K r s.transfer s.world).2.1 =
      (s.transfer || K.semWait s.world && decide (0 < (K.status s.world r.port).transfer)) := by
    unfold tryMonitor World.waitStatus
    cases K.semWait s.world with
    | false => simp
    | true =>
      simp only [if_true, Bool.true_and]
      split <;> rfl
  unfold dsuPreSelect DsuSocket.seesTransfer
  cases fdIsset r.fd s.readfds with
  | false => simp
  | true =>
    cases r.monitoring with
    | false => simp
    | true =>
      simp only [if_true, Bool.true_and, ← hmonitor]
      cases (tryMonitor K r s.transfer s.world).1 <;> rfl

theorem walk_preSelect_transfer (l : List DsuSocket) (s : SelectPass) :
    (walk (dsuPreSelect K) l s).2.transfer = true ↔ s.transfer = true ∨
      ∃ pre r post, l = pre ++ r :: post ∧ r.seesTransfer K (walk (dsuPreSelect K) pre s).2 = true := by
  induction l generalizing s with
  | nil => simp
  | cons x l ih =>
    rw [walk_cons, ih, dsuPreSelect_transfer, Bool.or_eq_true, or_assoc]
    refine or_congr_right ⟨?_, ?_⟩
    · rintro (hx | ⟨pre, r, post, rfl, hr⟩)
      · exact ⟨[], x, l, rfl, hx⟩
      · exact ⟨x :: pre, r, post, rfl, hr⟩
    · rintro ⟨pre, r, post, hl, hr⟩
      cases pre with
      | nil =>
        cases hl
        exact Or.inl hr
      | cons y pre =>
        cases hl
        exact Or.inr ⟨pre, r, post, rfl, hr⟩

theorem dsuSniffConn_transfer (r : DsuSocket) (s : SelectPass) : (dsuSniffConn r s).2.transfer = s.transfer := by
  have hfold : ∀ (cs : List Int) (s : SelectPass), (cs.foldl SelectPass.listen s).transfer = s.transfer := by
    intro cs
    induction cs with
    | nil => exact fun _ => rfl
    | cons c cs ih => exact fun s => ih _
  unfold dsuSniffConn
  split
  · rfl
  · rw [hfold]
    split <;> rfl

/-- The kernel wait has the timeout of the caller unless a transfer is seen. -/
theorem selectAsk_timeout_iff :
    (selectAsk K p nfds sets timeout).timeout = timeout ↔ (p.SeesTransfer K nfds sets → timeout = some 100) := by
  have hsniff := walk_state (g := SelectPass.transfer) dsuSniffConn_transfer
    (walk (dsuPreSelect K) p.binds (p.pass sets.read nfds)).1 (walk (dsuPreSelect K) p.binds (p.pass sets.read nfds)).2
  have hsees := walk_preSelect_transfer (K := K) p.binds (p.pass sets.read nfds)
  rw [show (p.pass sets.read nfds).transfer = false from rfl] at hsees
  -- Only the first of the two passes before the wait looks for a transfer.
  change (if (walk dsuSniffConn _ _).2.transfer then _ else _) = _ ↔ _
  rw [hsniff]
  cases htransfer : (walk (dsuPreSelect K) p.binds (p.pass sets.read nfds)).2.transfer with
  | false =>
    have hnot : ¬p.SeesTransfer K nfds sets := fun h => by simp [hsees.mpr (Or.inr h)] at htransfer
    simp [hnot]
  | true =>
    have hsome : p.SeesTransfer K nfds sets := (hsees.mp htransfer).resolve_left (by simp)
    simp [hsome, eq_comm]

theorem selectRound_timeout (K : Kernel) (p : Proc) (nfds : Int) (sets : FdSets) (t : Nat) :
    (selectRound K p nfds sets (some t)).2 ≠ .again := by
  unfold selectRound selectRest
  simp only
  split
  · simp
  · split <;> simp

/-- Without a timeout `select` waits again instead. -/
theorem selectRound_forever (out : FdSets) : (selectRound K p nfds sets none).2 ≠ .returned 0 out := by
  unfold selectRound selectRest
  simp only
  split
  · simp
  · split
    · simp
    · simp only [Option.isNone_none, and_true]
      split
      · simp
      · rename_i hne
        exact fun h => hne (Round.returned.inj h).1

/-- With a timeout there is one round. -/
theorem select_timeout (K : Kernel) (p : Proc) (nfds : Int) (sets : FdSets) (t : Nat) (hr : 0 < rounds) :
    select K nfds sets (some t) rounds p = some (selectRound K p nfds sets (some t)) ∧
      selectLast K nfds sets (some t) rounds p = p := by
  obtain ⟨rounds, rfl⟩ := Nat.exists_eq_succ_of_ne_zero (Nat.ne_of_gt hr)
  have hround := selectRound_timeout K p nfds sets t
  unfold select selectLast
  generalize selectRound K p nfds sets (some t) = done at hround ⊢
  rcases done with ⟨q, again | ⟨n, out⟩ | exited⟩
  · exact absurd rfl hround
  · exact ⟨rfl, rfl⟩
  · exact ⟨rfl, rfl⟩

/-- With a timeout, `select` returns what the handlers leave of the sets that are found. -/
theorem select_selected {t : Nat} {start : Proc} (hr : 0 < rounds)
    (hsel : p.selected K nfds sets (some t) rounds = some (start, found)) : ∃ q out,
      select K nfds sets (some t) rounds p =
        some (q, .returned ((found.untaken start.binds : Int) - start.correction) out) := by
  obtain ⟨hselect, hlast⟩ := select_timeout K p nfds sets t hr
  rw [hselect]
  unfold Proc.selected at hsel
  unfold selectRound
  simp only [hlast] at hsel ⊢
  generalize dsuInitializeEvent K p = s at hsel ⊢
  split at hsel
  · cases hsel
  · rename_i hexit
    obtain ⟨found', hfound, he⟩ := Option.map_eq_some_iff.mp hsel
    cases he
    obtain ⟨hreads, -⟩ := World.select_found hfound
    have hsize := selectServe_size (K := K)
      (p := { (selectAsk K start nfds sets (some t)).proc with
        world := (selectAsk K start nfds sets (some t)).proc.world.tick }) found fun g hg => (hreads g hg).2
    -- The passes before the wait leave the records what they take.
    have huntaken : (found.read.getD ∅).filter (¬Taken (selectAsk K start nfds sets (some t)).proc.binds ·) =
        (found.read.getD ∅).filter (¬Taken start.binds ·) :=
      Finset.filter_congr fun g _ =>
        not_congr (Taken.congr (asks_map (fun _ => rfl) (selectAsk_asks K start nfds sets (some t))) g)
    simp only [huntaken] at hsize
    change _ = _ - start.correction at hsize
    have huntakenSize : (found.untaken start.binds : Int) = (
        ((found.read.getD ∅).filter (¬Taken start.binds ·)).card : Int) +
        (found.write.getD ∅).card + (found.except.getD ∅).card := by
      unfold FdSets.untaken
      push_cast
      rfl
    rw [if_neg hexit, huntakenSize, ← hsize]
    unfold selectRest
    simp only [hfound, Option.isNone_some, Bool.false_eq_true, and_false, if_false]
    exact ⟨_, _, rfl⟩

theorem select_waitsOut : WaitsOut K p (.select nfds sets timeout rounds) ↔
    RealTimeout K p (.select nfds sets timeout rounds) := by
  constructor
  · rintro h ⟨q, out, hs⟩
    obtain ⟨start, found, hsel, -⟩ := selected_of_select hs (Int.le_refl 0)
    change (p.selected K nfds sets timeout rounds).map _ = _
    rw [hsel]
    have hrounds : 0 < rounds := by
      refine Nat.pos_of_ne_zero fun he => ?_
      subst he
      cases hs
    cases timeout with
    | none =>
      -- A round that has nothing to return is followed by another.
      obtain ⟨hdone, -⟩ := select_eq_last hs
      exact absurd (congrArg Prod.snd hdone).symm (selectRound_forever out)
    | some t =>
      obtain ⟨q', out', hreturned⟩ := select_selected hrounds hsel
      rw [hs] at hreturned
      simp only [Option.some.injEq, Prod.mk.injEq, Round.returned.injEq] at hreturned
      obtain ⟨hsize, hseen⟩ := h (by simp) hrounds start found hsel (by omega)
      change some ((selectAsk K start nfds sets (some t)).timeout, found.size) = _
      rw [hsize, selectAsk_timeout_iff.mpr hseen]
      rfl
  · intro h htimeout hrounds start found hsel hcount
    -- With nothing left the call does return 0, so its last wait has timed out.
    obtain ⟨t, rfl⟩ := Option.ne_none_iff_exists'.mp htimeout
    obtain ⟨q, out, hs⟩ := select_selected hrounds hsel
    rw [hcount, Int.sub_self] at hs
    have hlast := h ⟨q, out, hs⟩
    change (p.selected K nfds sets (some t) rounds).map _ = some (some t, 0) at hlast
    rw [hsel, Option.map_some, Option.some.injEq, Prod.mk.injEq] at hlast
    exact ⟨hlast.2, selectAsk_timeout_iff.mp hlast.1⟩

/-! ### `ppoll` -/

/-- The search of `dsu_set_revents` comes to its end if what it looks for lies behind the array. -/
theorem exists_rest (binds : List DsuSocket) (fds : List PollFd) (fds' : Nat → PollFd) (nfds' : Nat) :
    ∃ rest, dsuSetRevents binds (fds ++ rest) fds' nfds' ≠ none := by
  refine ⟨(List.range nfds').map fun i => ⟨dsuOriginalfd binds (fds' i).fd, 0, 0⟩, dsuSetRevents_iff nfds' |>.mpr ?_⟩
  refine ⟨fun _ => fds.length, fun _ _ _ => Nat.le_refl _, fun i hi _ => ?_⟩
  rw [List.map_append, List.getElem?_append_right (by simp)]
  simp [hi]

theorem ppoll_zero_iff {fds : List PollFd} {a : (Nat → PollFd) × Nat} (ha : a ∈ p.polled K fds timeout) :
    ReturnsZero K p (.ppoll fds timeout) ↔
      readyFrom a.1 0 a.2 = p.binds.length * readyFrom a.1 fds.length a.2 := by
  have hcast : (0 : Int) = readyFrom a.1 0 a.2 - p.binds.length * readyFrom a.1 fds.length a.2 ↔
      readyFrom a.1 0 a.2 = p.binds.length * readyFrom a.1 fds.length a.2 := by
    rw [eq_comm, Int.sub_eq_zero]
    exact_mod_cast Iff.rfl
  rw [← hcast]
  constructor
  · rintro ⟨rest, out, h⟩
    exact ((ppollIn_returned_iff ha).mp h).2
  · intro h
    -- The search runs past the array, so the call returns 0 in some memory and not in every one.
    obtain ⟨rest, hrest⟩ := exists_rest p.binds fds a.1 a.2
    obtain ⟨out, hout⟩ := Option.ne_none_iff_exists'.mp hrest
    exact ⟨rest, out, (ppollIn_returned_iff ha).mpr ⟨hout, h⟩⟩

theorem ppoll_waitsOut {fds : List PollFd} : WaitsOut K p (.ppoll fds timeout) ↔
    RealTimeout K p (.ppoll fds timeout) := by
  constructor
  · intro h hzero
    cases ha : p.polled K fds timeout with
    | none =>
      obtain ⟨rest, out, hr⟩ := hzero
      exact absurd (ppollIn_failed ha hr) (by decide)
    | some a =>
      change (p.polled K fds timeout).map _ = _
      rw [ha, Option.map_some, h a ha ((ppoll_zero_iff ha).mp hzero)]
      rfl
  · intro h a ha hall
    have hlast := h ((ppoll_zero_iff ha).mpr hall)
    change (p.polled K fds timeout).map _ = some (timeout, 0) at hlast
    rw [Option.mem_def.mp ha, Option.map_some, Option.some.injEq, Prod.mk.injEq] at hlast
    exact hlast.2

/-! ### `epoll_wait` -/

theorem epollWait_zero_iff {epfd : Int} (events : Nat → Event) {maxevents : Nat} {es : List Event}
    (hes : es ∈ p.reported K epfd maxevents timeout) :
    let wait := p.inEpollWait K epfd
    let post := dsuPostEpoll K epfd { wait with world := wait.world.tick } es events
    (epollWait K epfd events maxevents timeout p).1 = post.1 ∧
      (ReturnsZero K p (.epollWait epfd events maxevents timeout) ↔ post.2.1 = 0) := by
  unfold Proc.reported at hes
  simp only at hes
  split at hes
  · cases hes
  · rename_i hexit
    have hcall := epollWait_eq p events (by simpa using hexit) hes
    simp only at hcall ⊢
    generalize dsuPostEpoll K epfd _ es events = post at hcall ⊢
    obtain ⟨q, n, out⟩ := post
    change _ ∧ ((∃ out, (epollWait K epfd events maxevents timeout p).2 = _) ↔ _)
    rw [hcall]
    refine ⟨rfl, ?_, fun h => ?_⟩
    · rintro ⟨out', h⟩
      exact_mod_cast (EpollResult.returned.inj h).1
    · exact ⟨out, congrArg (fun n : Nat => EpollResult.returned n out) h⟩

theorem epollWait_unreported {epfd : Int} {events : Nat → Event} {maxevents : Nat}
    (h : p.reported K epfd maxevents timeout = none) : ¬ReturnsZero K p (.epollWait epfd events maxevents timeout) := by
  rintro ⟨out, hr⟩
  change (if (dsuInitializeEvent K p).exited then none else _) = none at h
  unfold epollWait epollRest at hr
  simp only at hr
  split at h
  · rename_i hexit
    rw [if_pos hexit] at hr
    cases hr
  · rename_i hexit
    rw [if_neg hexit] at hr
    split at hr
    · rename_i es hes
      cases hes.symm.trans h
    · cases hr

theorem epollWait_waitsOut {epfd : Int} {events : Nat → Event} {maxevents : Nat} :
    (WaitsOut K p (.epollWait epfd events maxevents timeout) →
        RealTimeout K p (.epollWait epfd events maxevents timeout)) ∧
      (¬Watched (p.inEpollWait K epfd).binds (-1) → RealTimeout K p (.epollWait epfd events maxevents timeout) →
        WaitsOut K p (.epollWait epfd events maxevents timeout)) := by
  have hlast : ∀ es, p.reported K epfd maxevents timeout = some es →
      (lastWait K p (.epollWait epfd events maxevents timeout) = some (timeout, 0) ↔ es = []) := by
    intro es hes
    change (p.reported K epfd maxevents timeout).map _ = _ ↔ _
    rw [hes]
    simp
  -- The count is 0 only if no event survives; the converse fails for an event whose number is -1.
  have hsurvivors : ∀ es, p.reported K epfd maxevents timeout = some es →
      let left := ∃ e ∈ es, Survives (p.inEpollWait K epfd).binds (p.inEpollWait K epfd).world
        (epollWait K epfd events maxevents timeout p).1.world e
      (left → ¬ReturnsZero K p (.epollWait epfd events maxevents timeout)) ∧
        (¬Watched (p.inEpollWait K epfd).binds (-1) →
          ¬ReturnsZero K p (.epollWait epfd events maxevents timeout) → left) := by
    intro es hes
    obtain ⟨hworld, hiff⟩ := epollWait_zero_iff events hes
    have h := dsuPostEpoll_survivors (K := K)
      (p := { p.inEpollWait K epfd with world := (p.inEpollWait K epfd).world.tick }) epfd es events
    simp only [survives_tick] at h
    simp only [hworld, hiff]
    exact h
  constructor
  · intro h hzero
    obtain ⟨es, hes⟩ := Option.ne_none_iff_exists'.mp fun hnone => epollWait_unreported hnone hzero
    refine (hlast es hes).mpr ?_
    by_contra hne
    exact (hsurvivors es hes).1 (h es hes hne) hzero
  · intro hminus h es hes hne
    exact (hsurvivors es hes).2 hminus fun hzero => hne ((hlast es hes).mp (h hzero))

/-! ### The calls -/

/-- A record has the number -1 only from a `bind` that could not open a `comfd`. -/
theorem Changes.unwatched {c c' : List DsuSocket × World} (h : Changes c c') (hc : ¬Watched c.1 (-1)) :
    ¬Watched c'.1 (-1) := by
  refine Changes.invariant (I := fun l _ => ¬Watched l (-1)) (fun _ _ _ _ hl => hl)
    (fun pre post r r' w w' he hl hw => ?_) h hc
  -- Only an accepted connection adds a number, and that one is open.
  have hr : -1 ∈ r'.watched → -1 ∈ r.watched := by
    cases he with
    | quiet hr => exact fun h => hr.watched ▸ h
    | quit _ hr =>
      rw [hr.watched]
      exact List.mem_append_right _
    | accepted c hr hw =>
      rw [hr.watched]
      have hne : -1 ≠ c := fun he => absurd hw.nonneg (he ▸ by decide)
      simp [DsuSocket.watched, hne]
    | closed c _ hr =>
      rw [hr.watched]
      simp only [DsuSocket.watched, List.mem_append]
      exact Or.imp_right List.mem_of_mem_erase
    | locked hr => exact fun h => hr.watched ▸ h
    | unlocked _ hr => exact fun h => hr.watched ▸ h
  obtain ⟨x, hx, hd⟩ := hw
  rcases List.mem_append.mp hx with hx | hx
  · exact hl ⟨x, List.mem_append_left _ hx, hd⟩
  · rcases List.mem_cons.mp hx with rfl | hx
    · exact hl ⟨r, List.mem_append_right _ List.mem_cons_self, hr hd⟩
    · exact hl ⟨x, List.mem_append_right _ (List.mem_cons_of_mem _ hx), hd⟩

/-- A call in which every wake-up leaves something to return returns 0 only for a timeout; and only such a call does, an
    `epoll_wait` if every bound socket has a `comfd`. Without a timeout, it does not return 0. -/
theorem realTimeout_iff (K : Kernel) (p : Proc) (call : Call) :
    (WaitsOut K p call → RealTimeout K p call) ∧
      ((call.isEpollWait = true → ¬Watched p.binds (-1)) → (RealTimeout K p call ↔ WaitsOut K p call)) ∧
      (RealTimeout K p call → call.timeout = none → lastWait K p call ≠ some (none, 0) → ¬ReturnsZero K p call) := by
  suffices h : (WaitsOut K p call → RealTimeout K p call) ∧
      ((call.isEpollWait = true → ¬Watched p.binds (-1)) → RealTimeout K p call → WaitsOut K p call) from
    ⟨h.1, fun hc => ⟨h.2 hc, h.1⟩, RealTimeout.not_returnsZero⟩
  cases call with
  | select nfds sets timeout rounds => exact ⟨select_waitsOut.mp, fun _ => select_waitsOut.mpr⟩
  | ppoll fds timeout => exact ⟨ppoll_waitsOut.mp, fun _ => ppoll_waitsOut.mpr⟩
  | epollWait epfd events maxevents timeout =>
    -- What is watched at the start of the call is all that is watched at its wait.
    have hwait : Changes (p.binds, p.world) ((p.inEpollWait K epfd).binds, (p.inEpollWait K epfd).world) :=
      (dsuInitializeEvent_evolves K p).changes.trans (dsuPreEpoll_changes K epfd _ _)
    exact ⟨epollWait_waitsOut.1, fun hminus => epollWait_waitsOut.2 (hwait.unwatched (hminus rfl))⟩
  | socket | bind | accept | close | epollCtl => exact ⟨fun _ => nofun, fun _ _ => trivial⟩

/-- A process polls its bound socket, and the time runs out. -/
theorem realTimeout_of_idle_poll : ∃ p, (procMachine soloKernel).run .loaded [.socket, .bind 3 8080] = some p ∧
    RealTimeout soloKernel p (.ppoll [⟨3, pollin, 0⟩] (some 5)) := by
  refine ⟨_, rfl, (realTimeout_iff soloKernel _ _).1 fun a ha _ => ?_⟩
  cases ha
  rfl

/-- A new version connects to the `comfd`, which is descriptor 4. -/
def wakeKernel : Kernel :=
  { soloKernel with
    select := fun _ _ => some { read := fun fd => fd = 4, write := fun _ => false, except := fun _ => false }
    ppoll := fun _ _ => some fun i => if i = 1 then 1 else 0
    epollWait := fun w _ _ => some ((w.regs.filter (·.fd == 4)).map fun g => (g, epollin)) }

/-- A process waits for its bound socket, with `select` for five seconds and with the other calls for ever. The new
    version wakes it, and each call returns 0. -/
theorem wake_returns_zero : ∃ p, (procMachine wakeKernel).run .loaded [.socket, .bind 3 8080] = some p ∧
    ∀ call ∈ [.select 4 ⟨some {3}, none, none⟩ (some 5000000) 1, .ppoll [⟨3, pollin, 0⟩] none, waitFour],
      ReturnsZero wakeKernel p call ∧ lastWait wakeKernel p call = some (call.timeout, 1) ∧
        ¬RealTimeout wakeKernel p call := by
  refine ⟨_, rfl, ?_⟩
  have hreal : ∀ p call, ReturnsZero wakeKernel p call → lastWait wakeKernel p call = some (call.timeout, 1) →
      ¬RealTimeout wakeKernel p call := by
    intro p call hzero hlast h
    have := hlast.symm.trans (h hzero)
    simp at this
  simp only [List.forall_mem_cons]
  refine ⟨⟨⟨_, _, rfl⟩, rfl, hreal _ _ ⟨_, _, rfl⟩ rfl⟩, ⟨⟨[⟨4, pollin, 0⟩], _, rfl⟩, rfl, ?_⟩, ⟨⟨_, rfl⟩, rfl, ?_⟩, nofun⟩
  · exact hreal _ _ ⟨[⟨4, pollin, 0⟩], _, rfl⟩ rfl
  · exact hreal _ _ ⟨_, rfl⟩ rfl

end OpenDSU
