import OpenDSU.Decision
import OpenDSU.Theorems.HandlersAgree
import OpenDSU.Theorems.Renaming

/-! Which bound sockets `select` puts in its wait.

The pass goes from record to record. What one leaves to the next is the flag `transfer`, and the semaphores that are
locked by then. -/

namespace OpenDSU

variable {K : Kernel} {P : Ports} {held : List Nat} {asked : Finset Int} {p : Proc} {r r' : DsuSocket} {w : World}
  {binds : List DsuSocket}

/-! ### One record -/

/-- A record is tried, in a pass with the flag `transfer`, while the process holds the semaphores `held`. -/
def Ports.access (P : Ports) (held : List Nat) (transfer : Bool) (r : DsuSocket) : Access :=
  if transfer && r.blocking then if P.obtains held r.fdSem then .locked else .refused else .free

theorem tryMonitor_shown (hK : K.Shows P) (r : DsuSocket) (transfer : Bool) (w : World) :
    let a := tryMonitor K r transfer w
    a.1 = P.access w.held (transfer || P.inTransfer r) r ∧ a.2.1 = (transfer || P.inTransfer r) ∧
      a.2.2.held = if a.1 = .locked then r.fdSem :: w.held else w.held := by
  have hstatus : (w.waitStatus K r.port).2.status r.port = P.status r.port := by
    unfold World.waitStatus
    simp only [if_true]
    exact hK.status w r.port
  have hheld : (w.waitStatus K r.port).2.held = w.held := rfl
  unfold tryMonitor Ports.access
  simp only [show (w.waitStatus K r.port).1 = true from hK.semWait w, if_true, hstatus]
  change _ ∧ _ ∧ _
  by_cases htry : (transfer || decide (0 < (P.status r.port).transfer)) && r.blocking
  · have hgot : ((w.waitStatus K r.port).2.trywait K r.fdSem).1 = P.obtains w.held r.fdSem := by
      unfold World.trywait Ports.obtains
      rw [hK.semTrywait, hheld]
      split <;> simp_all
    have hnext : ((w.waitStatus K r.port).2.trywait K r.fdSem).2.held =
        if P.obtains w.held r.fdSem then r.fdSem :: w.held else w.held := by
      rw [← hgot]
      unfold World.trywait
      split <;> rfl
    simp only [Ports.inTransfer, htry, if_true, hgot, hnext, true_and]
    split <;> rfl
  · simp only [Ports.inTransfer, htry, Bool.false_eq_true, if_false, true_and]
    rfl

theorem decides_cons {l l' : List DsuSocket} {waits : Int → Prop} :
    P.Decides held asked (r :: l) (r' :: l') waits ↔
      (r' = { r with locked := decide (r.fd ∈ asked) && P.locks held r } ∧
        (waits r.shadowfd ↔ r.fd ∈ asked ∧ P.admits held r = true)) ∧ P.Decides held asked l l' waits := by
  constructor
  · rintro ⟨hlocked, hwaits⟩
    rw [List.map_cons, List.cons.injEq] at hlocked
    rw [List.forall_mem_cons] at hwaits
    exact ⟨⟨hlocked.1, hwaits.1⟩, hlocked.2, hwaits.2⟩
  · rintro ⟨⟨hlocked, hwaits⟩, hrest⟩
    exact ⟨by rw [hlocked, hrest.locked, List.map_cons], List.forall_mem_cons.mpr ⟨hwaits, hrest.waits⟩⟩

/-- The records have two descriptors each that no other has. -/
def Separated (l : List DsuSocket) : Prop :=
  l.Pairwise fun r x => x.fd ≠ r.fd ∧ x.shadowfd ≠ r.fd ∧ x.fd ≠ r.shadowfd ∧ x.shadowfd ≠ r.shadowfd

theorem Distinct.separated {sockets : List DsuSocket} (h : Distinct sockets binds w)
    (hpos : ∀ r ∈ binds, 0 < r.shadowfd) : Separated binds := by
  unfold Separated
  rw [List.pairwise_iff_forall_sublist]
  intro r x hrx
  have hnames := h.apart.names
  rw [List.pairwise_map, List.pairwise_iff_forall_sublist] at hnames
  obtain ⟨hfd, hshadow, hback⟩ : r.fd ≠ x.fd ∧ r.fd ≠ x.shadowfd ∧ r.shadowfd ≠ x.fd := hnames hrx
  have hr : r ∈ binds := hrx.subset (by simp)
  have hx : x ∈ binds := hrx.subset (by simp)
  exact ⟨hfd.symm, hshadow.symm, hback.symm, fun he => hfd (h.fd_of_shadowfd hr hx (hpos r hr) he).symm⟩

/-! ### `select` -/

theorem fdIsset_fdSet_self (c : Int) {set : Option FdSet} (h : set.isSome = true) : fdIsset c (fdSet c set) = true := by
  cases set with
  | none => cases h
  | some S => simp [fdIsset, fdSet]

theorem fdIsset_fdSet_of_ne {d c : Int} (h : d ≠ c) (set : Option FdSet) : fdIsset d (fdSet c set) = fdIsset d set := by
  cases set <;> simp [fdIsset, fdSet, h]

theorem fdIsset_fdClr_self (c : Int) (set : Option FdSet) : fdIsset c (fdClr c set) = false := by
  cases set <;> simp [fdIsset, fdClr]

namespace Ports

variable (P asked) (flag : Bool) (now : List Nat) (r : DsuSocket)

/-- The flag that `select` hands on. -/
def flagAfter : Bool := flag || (decide (r.fd ∈ asked) && r.monitoring && P.inTransfer r)

/-- Whether `select` locks the record, with its flag and the semaphores that it holds by then. -/
def locksAfter : Bool :=
  decide (r.fd ∈ asked) && r.monitoring && P.flagAfter asked flag r && r.blocking && P.obtains now r.fdSem

def entersAfter : Bool :=
  decide (r.fd ∈ asked) && r.monitoring && (!(P.flagAfter asked flag r && r.blocking) || P.obtains now r.fdSem)

end Ports

/-- What the pass of `select` makes of one record. -/
theorem dsuPreSelect_shown (hK : K.Shows P) (r : DsuSocket) (s : SelectPass)
    (hasked : fdIsset r.fd s.readfds = decide (r.fd ∈ asked))
    (hown : fdIsset r.shadowfd s.readfds = true → r.shadowfd = r.fd) :
    let q := dsuPreSelect K r s
    let locks := P.locksAfter asked s.transfer s.world.held r
    q.1 = (if locks then { r with locked := true } else r) ∧ q.2.transfer = P.flagAfter asked s.transfer r ∧
      q.2.world.held = (if locks then r.fdSem :: s.world.held else s.world.held) ∧
      fdIsset r.shadowfd q.2.readfds = P.entersAfter asked s.transfer s.world.held r := by
  have hclr : fdIsset r.shadowfd (fdClr r.fd s.readfds) = false := by
    by_cases he : r.shadowfd = r.fd
    · rw [he]
      exact fdIsset_fdClr_self _ _
    · rw [fdIsset_fdClr he]
      exact Bool.eq_false_iff.mpr fun h => he (hown h)
  unfold Ports.locksAfter Ports.entersAfter Ports.flagAfter dsuPreSelect
  rw [← hasked]
  cases hfd : fdIsset r.fd s.readfds with
  | false =>
    have hshadow : fdIsset r.shadowfd s.readfds = false := by
      refine Bool.eq_false_iff.mpr fun h => ?_
      rw [← hown h, h] at hfd
      cases hfd
    simp [hshadow]
  | true =>
    have hsome : (fdClr r.fd s.readfds).isSome = true := by
      cases hset : s.readfds with
      | none => simp [hset, fdIsset] at hfd
      | some S => rfl
    have hset : fdIsset r.shadowfd (fdSet r.shadowfd (fdClr r.fd s.readfds)) = true := fdIsset_fdSet_self _ hsome
    simp only [if_true]
    obtain ⟨haccess, htransfer, hheld⟩ := tryMonitor_shown hK r s.transfer s.world
    generalize tryMonitor K r s.transfer s.world = a at haccess htransfer hheld ⊢
    obtain ⟨access, transfer, w⟩ := a
    simp only at haccess htransfer hheld
    subst haccess htransfer
    cases hmon : r.monitoring with
    | false =>
      simp only [Bool.false_eq_true, if_false, Bool.and_false, Bool.false_and, Bool.or_false]
      exact ⟨trivial, trivial, trivial, hclr⟩
    | true =>
      simp only [if_true, Bool.true_and]
      unfold Ports.access at hheld ⊢
      cases htry : (s.transfer || P.inTransfer r) && r.blocking with
      | false =>
        simp only [htry, Bool.false_eq_true, if_false, reduceCtorEq, Bool.false_and, Bool.not_false, Bool.true_or] at hheld ⊢
        exact ⟨trivial, rfl, hheld, hset⟩
      | true =>
        cases hobtain : P.obtains s.world.held r.fdSem with
        | false =>
          simp only [htry, hobtain, if_true, Bool.false_eq_true, if_false, reduceCtorEq, Bool.and_false, Bool.not_true,
            Bool.or_false] at hheld ⊢
          exact ⟨trivial, trivial, hheld, hclr⟩
        | true =>
          simp only [htry, hobtain, if_true, Bool.and_true, Bool.or_true] at hheld ⊢
          exact ⟨trivial, rfl, hheld, hset⟩

/-- Other descriptors stay in the read set, or out of it. -/
theorem dsuPreSelect_frame {d : Int} (hfd : d ≠ r.fd) (hshadowfd : d ≠ r.shadowfd) (s : SelectPass) :
    fdIsset d (dsuPreSelect K r s).2.readfds = fdIsset d s.readfds := by
  have hclr : fdIsset d (fdClr r.fd s.readfds) = fdIsset d s.readfds := fdIsset_fdClr hfd _
  have hset : fdIsset d (fdSet r.shadowfd (fdClr r.fd s.readfds)) = fdIsset d s.readfds :=
    (fdIsset_fdSet_of_ne hshadowfd _).trans hclr
  unfold dsuPreSelect
  split
  · simp only
    split
    · cases (tryMonitor K r s.transfer s.world).1 with
      | refused => exact hclr
      | free => exact hset
      | locked => exact hset
    · exact hclr
  · rfl

theorem walk_preSelect_frame {d : Int} {l : List DsuSocket} (hd : ∀ r ∈ l, d ≠ r.fd ∧ d ≠ r.shadowfd) (s : SelectPass) :
    fdIsset d (walk (dsuPreSelect K) l s).2.readfds = fdIsset d s.readfds := by
  induction l generalizing s with
  | nil => rfl
  | cons r l ih =>
    obtain ⟨⟨hfd, hshadowfd⟩, hl⟩ := List.forall_mem_cons.mp hd
    exact (ih hl _).trans (dsuPreSelect_frame hfd hshadowfd s)

theorem lock_eq_iff {locks locked : Bool} :
    (if locks then { r with locked := true } else r) = { r with locked := locked } ↔ (r.locked || locks) = locked := by
  cases locks with
  | false =>
    rw [Bool.or_false]
    exact ⟨fun h => congrArg DsuSocket.locked h, fun h => h ▸ rfl⟩
  | true =>
    rw [Bool.or_true]
    exact ⟨fun h => congrArg DsuSocket.locked h, fun h => h ▸ rfl⟩

/-- What the records that follow may not be, once the pass has its flag and holds its semaphores. -/
structure Unaffected (P : Ports) (held : List Nat) (asked : Finset Int) (flag : Bool) (now : List Nat) (r : DsuSocket) :
    Prop where
  order : flag = true → ¬(r.fd ∈ asked ∧ r.monitoring = true ∧ r.blocking = true ∧ P.inTransfer r = false)
  apart : r.fd ∈ asked ∧ P.locks held r = true → r.fdSem ∉ now
  unlocked : r.locked = true → r.fd ∈ asked ∧ P.locks held r = true

/-- A semaphore that was free at the start is obtained unless it is held by now. -/
theorem obtains_now {now : List Nat} (hheld : ∀ sem ∈ held, sem ∈ now) (sem : Nat) :
    P.obtains now sem = (P.obtains held sem && decide (sem ∉ now)) := by
  unfold Ports.obtains
  by_cases hnow : sem ∈ now
  · simp [hnow]
  · have hnot : sem ∉ held := fun h => hnow (hheld sem h)
    simp [hnow, hnot]

/-- A record that is not to be tried, or not asked for, is left out. -/
theorem locks_unwanted {flag : Bool} {now : List Nat} (h : ¬(r.fd ∈ asked ∧ r.monitoring = true)) :
    P.locksAfter asked flag now r = false ∧ P.entersAfter asked flag now r = false ∧
      (decide (r.fd ∈ asked) && P.locks held r) = false ∧ (decide (r.fd ∈ asked) && P.admits held r) = false := by
  unfold Ports.locksAfter Ports.entersAfter Ports.locks Ports.admits
  by_cases ha : r.fd ∈ asked
  · have hmon : r.monitoring = false := by simpa [ha] using h
    simp [hmon]
  · simp [ha]

theorem Unaffected.locksAfter {flag : Bool} {now : List Nat} (hheld : ∀ sem ∈ held, sem ∈ now)
    (h : Unaffected P held asked flag now r) :
    P.locksAfter asked flag now r = (decide (r.fd ∈ asked) && P.locks held r) := by
  obtain ⟨horder, hapart, -⟩ := h
  by_cases hwanted : r.fd ∈ asked ∧ r.monitoring = true
  · unfold Ports.locksAfter Ports.flagAfter
    rw [obtains_now hheld]
    simp only [Ports.locks, hwanted, true_and, decide_true, Bool.true_and, Bool.and_eq_true] at horder hapart ⊢
    cases htransfer : P.inTransfer r <;> cases hblocking : r.blocking <;> cases hflag : flag <;> simp_all
  · obtain ⟨hlocks, -, hnone, -⟩ : P.locksAfter asked flag now r = false ∧ P.entersAfter asked flag now r = false ∧
      (decide (r.fd ∈ asked) && P.locks held r) = false ∧ _ := locks_unwanted hwanted
    rw [hlocks, hnone]

/-- Such a record is decided by itself. -/
theorem unaffected_iff {flag : Bool} {now : List Nat} (hheld : ∀ sem ∈ held, sem ∈ now) :
    (r.locked || P.locksAfter asked flag now r) = (decide (r.fd ∈ asked) && P.locks held r) ∧
      P.entersAfter asked flag now r = (decide (r.fd ∈ asked) && P.admits held r) ↔
    Unaffected P held asked flag now r := by
  constructor
  · rintro ⟨hlocks, henters⟩
    refine ⟨?_, ?_, fun hlocked => ?_⟩
    · rintro rfl ⟨ha, hmon, hblocking, htransfer⟩
      -- It would be tried, and either be locked or be left out.
      simp only [Ports.locksAfter, Ports.entersAfter, Ports.flagAfter, Ports.locks, Ports.admits, ha, hmon, hblocking,
        htransfer, decide_true, Bool.true_and, Bool.true_or, Bool.false_and, Bool.not_true, Bool.false_or,
        Bool.not_false, Bool.or_eq_false_iff] at hlocks henters
      rw [hlocks.2] at henters
      cases henters
    · rintro ⟨ha, hlock⟩
      unfold Ports.locks at hlock
      simp only [Bool.and_eq_true] at hlock
      obtain ⟨⟨⟨hmon, htransfer⟩, hblocking⟩, hobtains⟩ := hlock
      simp only [Ports.entersAfter, Ports.flagAfter, Ports.admits, ha, hmon, hblocking, htransfer, hobtains,
        decide_true, Bool.true_and, Bool.or_true, Bool.not_true, Bool.false_or, obtains_now hheld] at henters
      simpa using henters
    · rw [hlocked, Bool.true_or] at hlocks
      simpa using hlocks.symm
  · intro h
    have hlocks := h.locksAfter hheld
    obtain ⟨horder, hapart, hunlocked⟩ := h
    refine ⟨?_, ?_⟩
    · rw [hlocks]
      cases hlocked : r.locked with
      | false => exact Bool.false_or _
      | true => simpa using hunlocked hlocked
    · by_cases hwanted : r.fd ∈ asked ∧ r.monitoring = true
      · unfold Ports.entersAfter Ports.flagAfter
        rw [obtains_now hheld]
        simp only [Ports.locks, Ports.admits, hwanted, true_and, decide_true, Bool.true_and,
          Bool.and_eq_true] at horder hapart ⊢
        cases htransfer : P.inTransfer r <;> cases hblocking : r.blocking <;> cases hflag : flag <;> simp_all
      · obtain ⟨-, henters, -, hnone⟩ : P.locksAfter asked flag now r = false ∧ P.entersAfter asked flag now r = false ∧
          _ ∧ (decide (r.fd ∈ asked) && P.admits held r) = false := locks_unwanted hwanted
        rw [henters, hnone]

/-- What a record leaves to the next ones: the flag, and its semaphore. -/
theorem unaffected_next {flag : Bool} {now : List Nat} {x : DsuSocket} :
    Unaffected P held asked (P.flagAfter asked flag r)
        (if decide (r.fd ∈ asked) && P.locks held r then r.fdSem :: now else now) x ↔
      Unaffected P held asked flag now x ∧ ¬P.Misleads asked r x ∧ ¬P.Contends held asked r x := by
  unfold Ports.flagAfter
  constructor
  · rintro ⟨horder, hapart, hunlocked⟩
    refine ⟨⟨fun hflag => horder (by simp [hflag]), fun hx hmem => hapart hx ?_, hunlocked⟩, ?_, ?_⟩
    · split
      · exact List.mem_cons_of_mem _ hmem
      · exact hmem
    · rintro ⟨hr, hx⟩
      exact horder (by simp [hr]) hx
    · rintro ⟨hr, hx, he⟩
      refine hapart hx ?_
      rw [if_pos (by simp [hr]), he]
      exact List.mem_cons_self
  · rintro ⟨⟨horder, hapart, hunlocked⟩, hnext, hother⟩
    refine ⟨fun hflag hx => ?_, fun hx hmem => ?_, hunlocked⟩
    · simp only [Bool.or_eq_true, Bool.and_eq_true, decide_eq_true_eq] at hflag
      rcases hflag with hflag | ⟨⟨hr, hmon⟩, htransfer⟩
      · exact horder hflag hx
      · exact hnext ⟨⟨hr, hmon, htransfer⟩, hx⟩
    · split at hmem
      · rename_i hr
        rcases List.mem_cons.mp hmem with he | hmem
        · exact hother ⟨by simpa using hr, hx, he.symm⟩
        · exact hapart hx hmem
      · exact hapart hx hmem

/-- The pass of `select` over the records that remain decides by each record exactly where they are in order. -/
theorem walk_preSelect_decides_iff (hK : K.Shows P) (l : List DsuSocket) (s : SelectPass) (hsep : Separated l)
    (hasked : ∀ r ∈ l, fdIsset r.fd s.readfds = decide (r.fd ∈ asked))
    (hown : ∀ r ∈ l, fdIsset r.shadowfd s.readfds = true → r.shadowfd = r.fd)
    (hheld : ∀ sem ∈ held, sem ∈ s.world.held) :
    P.Decides held asked l (walk (dsuPreSelect K) l s).1 (fdIsset · (walk (dsuPreSelect K) l s).2.readfds = true) ↔
      (∀ r ∈ l, Unaffected P held asked s.transfer s.world.held r) ∧
      (l.Pairwise fun s r => ¬P.Misleads asked s r) ∧ l.Pairwise fun s r => ¬P.Contends held asked s r := by
  induction l generalizing s with
  | nil => exact ⟨fun _ => ⟨by simp, .nil, .nil⟩, fun _ => ⟨rfl, by simp⟩⟩
  | cons r l ih =>
    rw [walk_cons, decides_cons]
    obtain ⟨hhead, hsep⟩ := List.pairwise_cons.mp hsep
    obtain ⟨hr, hasked⟩ := List.forall_mem_cons.mp hasked
    obtain ⟨hrown, hown⟩ := List.forall_mem_cons.mp hown
    obtain ⟨hrecord, hflag, hnow, hwait⟩ := dsuPreSelect_shown hK r s hr hrown
    have hframe : fdIsset r.shadowfd (walk (dsuPreSelect K) l (dsuPreSelect K r s).2).2.readfds =
        fdIsset r.shadowfd (dsuPreSelect K r s).2.readfds :=
      walk_preSelect_frame (fun x hx => ⟨(hhead x hx).2.2.1.symm, (hhead x hx).2.2.2.symm⟩) _
    have hfirst : ((dsuPreSelect K r s).1 = { r with locked := decide (r.fd ∈ asked) && P.locks held r } ∧
        (fdIsset r.shadowfd (walk (dsuPreSelect K) l (dsuPreSelect K r s).2).2.readfds = true ↔
          r.fd ∈ asked ∧ P.admits held r = true)) ↔ Unaffected P held asked s.transfer s.world.held r := by
      rw [← unaffected_iff hheld, hrecord, lock_eq_iff, hframe, hwait]
      refine and_congr_right fun _ => ?_
      exact ⟨fun h => Bool.eq_iff_iff.mpr (by simpa using h), fun h => by simp [h]⟩
    have hrest (hu : Unaffected P held asked s.transfer s.world.held r) :
        P.Decides held asked l (walk (dsuPreSelect K) l (dsuPreSelect K r s).2).1
          (fdIsset · (walk (dsuPreSelect K) l (dsuPreSelect K r s).2).2.readfds = true) ↔
        (∀ x ∈ l, Unaffected P held asked s.transfer s.world.held x ∧ ¬P.Misleads asked r x ∧ ¬P.Contends held asked r x) ∧
          (l.Pairwise fun s r => ¬P.Misleads asked s r) ∧ l.Pairwise fun s r => ¬P.Contends held asked s r := by
      rw [ih (dsuPreSelect K r s).2 hsep
        (fun x hx => (dsuPreSelect_frame (hhead x hx).1 (hhead x hx).2.2.1 s).trans (hasked x hx))
        (fun x hx h => hown x hx ((dsuPreSelect_frame (hhead x hx).2.1 (hhead x hx).2.2.2 s).symm.trans h)), hflag, hnow,
        hu.locksAfter hheld]
      · simp only [unaffected_next]
      · intro sem hsem
        rw [hnow]
        split
        · exact List.mem_cons_of_mem _ (hheld sem hsem)
        · exact hheld sem hsem
    rw [hfirst, List.forall_mem_cons, List.pairwise_cons, List.pairwise_cons]
    constructor
    · rintro ⟨hu, hdecides⟩
      obtain ⟨hall, horder, hapart⟩ := (hrest hu).mp hdecides
      exact ⟨⟨hu, fun x hx => (hall x hx).1⟩, ⟨fun x hx => (hall x hx).2.1, horder⟩, fun x hx => (hall x hx).2.2, hapart⟩
    · rintro ⟨⟨hu, hall⟩, ⟨hmisleads, horder⟩, hcontends, hapart⟩
      exact ⟨hu, (hrest hu).mpr ⟨fun x hx => ⟨hall x hx, hmisleads x hx, hcontends x hx⟩, horder, hapart⟩⟩

end OpenDSU
