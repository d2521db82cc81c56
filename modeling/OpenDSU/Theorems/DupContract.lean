import OpenDSU.Dup
import OpenDSU.Theorems.Renaming
import Mathlib.Data.Fintype.EquivFin

/-! What `dup`, `dup2` and `dup3` make of descriptors that stand for other ones: both arguments are translated, and no
list is changed. -/

namespace OpenDSU

variable {K : Kernel} {p q : Proc} {granted : Bool} {oldfd newfd fd : Int}

/-- A record, or an entry of `fds`, stands for the file of the number. -/
def Proc.StandsFor (p : Proc) (n : Int) : Prop :=
  (∃ r ∈ p.sockets ++ p.binds, r.shadowfd = n) ∨ ∃ r ∈ p.binds, n ∈ r.fds

/-- A connection that is accepted through the descriptor keeps the process from terminating, whatever the kernel
    has come to by then. -/
def Proc.TracksAccepted (p : Proc) (sockfd : Int) : Prop :=
  ∀ K w sessionfd q, accept K { p with world := w } sockfd = (sessionfd, q) → sessionfd ≠ -1 →
    ∃ r ∈ q.binds, sessionfd ∈ r.fds

/-- A connection accepted through the duplicate is tracked as one accepted through the original is. -/
def DupTracks (p q : Proc) (oldfd newfd : Int) : Prop :=
  (dsuSocketsSearchFd p.binds oldfd).isSome → q.TracksAccepted newfd

/-- The contract of a `dup2` or `dup3` that returned `result`. -/
structure DupContract (p q : Proc) (oldfd newfd result : Int) : Prop where
  result : result = newfd
  same : q.world.isOpen (dsuShadowfd q.binds newfd) = true ∧
    q.world.fdt (dsuShadowfd q.binds newfd) = q.world.fdt (dsuShadowfd q.binds oldfd)
  /-- Nothing stands for the file that `newfd` stood for before, where that is another one. -/
  gone : ∀ file, p.world.fdt (dsuShadowfd p.binds newfd) = some file →
    q.world.fdt (dsuShadowfd q.binds newfd) ≠ some file → ¬q.StandsFor (dsuShadowfd p.binds newfd)
  tracked : DupTracks p q oldfd newfd

/-- `newfd` is known to the kernel under its own number; it is not open, stands for the file of `oldfd` already or
    for one that nothing else stands for; and it is bound when `oldfd` is. -/
structure DupPlain (p : Proc) (oldfd newfd : Int) : Prop where
  own : dsuShadowfd p.binds newfd = newfd
  slot : p.world.fdt newfd = none ∨ p.world.fdt newfd = p.world.fdt (dsuShadowfd p.binds oldfd) ∨ ¬p.StandsFor newfd
  bound : (dsuSocketsSearchFd p.binds oldfd).isSome → (dsuSocketsSearchFd p.binds newfd).isSome

/-! ### Accepting through a duplicate -/

/-- There is a number that no list has. -/
theorem exists_fresh (l : List Int) : ∃ n : Nat, (n : Int) ∉ l := by
  obtain ⟨n, hn⟩ := Infinite.exists_notMem_finset (l.map Int.toNat).toFinset
  refine ⟨n, fun h => hn ?_⟩
  rw [List.mem_toFinset]
  exact List.mem_map.mpr ⟨n, h, rfl⟩

theorem tracksAccepted_of_bound (h : (dsuSocketsSearchFd p.binds fd).isSome) : p.TracksAccepted fd := by
  intro K w sessionfd q haccept hsession
  obtain ⟨r, hr⟩ := Option.isSome_iff_exists.mp h
  unfold accept at haccept
  simp only at haccept
  generalize w.accept K (dsuShadowfd p.binds fd) _ = accepted at haccept
  by_cases hfailed : accepted.1 = -1
  · rw [if_pos hfailed] at haccept
    exact absurd (congrArg Prod.fst haccept).symm hsession
  · rw [if_neg hfailed] at haccept
    cases haccept
    obtain ⟨pre, post, -, hupdate⟩ := dsuSocketsUpdate_of_find hr (dsuSocketAddFds · accepted.1 .nonInternal)
    refine ⟨dsuSocketAddFds r accepted.1 .nonInternal, ?_, by simp [dsuSocketAddFds]⟩
    simp only [hupdate]
    exact List.mem_append_right _ List.mem_cons_self

/-- A connection of an unknown descriptor joins no record. -/
theorem bound_of_tracksAccepted (h : p.TracksAccepted fd) : (dsuSocketsSearchFd p.binds fd).isSome := by
  by_contra hbound
  have hnone : dsuSocketsSearchFd p.binds fd = none := by simpa using hbound
  obtain ⟨n, hn⟩ := exists_fresh (fd :: p.binds.flatMap DsuSocket.fds)
  obtain ⟨hne, hn⟩ := not_or.mp (fun h => hn (List.mem_cons.mpr h))
  -- only the descriptor is open, and the connection gets the fresh number
  let w : World := { p.world with fdt := fun d => if d = fd then some ⟨0, .user⟩ else none }
  let K : Kernel := { soloKernel with number := fun _ => some n }
  have haccept : accept K { p with world := w } fd = ((n : Int),
      { p with world := ((w.install n .user).tick) }) := by
    have hself : dsuShadowfd p.binds fd = fd := by rw [dsuShadowfd, hnone]
    have hsession : w.accept K fd .user = ((n : Int), (w.install n .user).tick) := by
      have hfree : w.isOpen n = false := by simp [w, World.isOpen, hne]
      have hopen : w.isOpen fd = true := by simp [w, World.isOpen]
      simp [World.accept, World.allot, hopen, hfree, K, soloKernel]
    unfold accept
    simp only [hself, hnone, Option.isSome_none, Bool.false_eq_true, if_false, hsession]
    rw [if_neg (by omega), dsuSocketsUpdate_of_find_none hnone]
  obtain ⟨r, hr, hmem⟩ := h K w n _ haccept (by omega)
  exact hn (List.mem_flatMap.mpr ⟨r, hr, hmem⟩)

theorem tracksAccepted_iff : p.TracksAccepted fd ↔ (dsuSocketsSearchFd p.binds fd).isSome :=
  ⟨bound_of_tracksAccepted, tracksAccepted_of_bound⟩

/-! ### The contract -/

/-- What a `dup2` that succeeds makes of the numbers. -/
theorem World.dup2_granted {w : World} (h : (w.dup2 K granted oldfd newfd).1 ≠ -1) :
    w.isOpen oldfd = true ∧ (w.dup2 K granted oldfd newfd).1 = newfd ∧
      ∀ d, (w.dup2 K granted oldfd newfd).2.fdt d = if d = newfd then w.fdt oldfd else w.fdt d := by
  unfold dup2 at h ⊢
  by_cases hallowed : (w.isOpen oldfd && 0 ≤ newfd && granted) = true
  · rw [if_pos hallowed]
    refine ⟨by simp_all, rfl, fun d => ?_⟩
    by_cases hsame : oldfd = newfd
    · rw [if_pos hsame, ← hsame]
      by_cases hd : d = oldfd
      · rw [if_pos hd, hd]
        rfl
      · rw [if_neg hd]
        rfl
    · rw [if_neg hsame]
      rfl
  · rw [if_neg hallowed] at h
    exact absurd rfl h

theorem World.dup3_granted {w : World} (h : (w.dup3 K granted oldfd newfd).1 ≠ -1) :
    w.dup3 K granted oldfd newfd = w.dup2 K granted oldfd newfd := by
  unfold dup3 at h ⊢
  split at h
  · exact absurd rfl h
  · rename_i hne
    rw [if_neg hne]

/-- The contract, of a call that left the lists alone and the number of `newfd` with the file of `oldfd`. -/
theorem contract_iff {w : World} {result : Int} (hopen : p.world.isOpen (dsuShadowfd p.binds oldfd) = true)
    (hresult : result = dsuShadowfd p.binds newfd)
    (hw : ∀ d, w.fdt d = if d = dsuShadowfd p.binds newfd then p.world.fdt (dsuShadowfd p.binds oldfd)
      else p.world.fdt d) :
    DupContract p { p with world := w } oldfd newfd result ↔ DupPlain p oldfd newfd := by
  have hnew : w.fdt (dsuShadowfd p.binds newfd) = p.world.fdt (dsuShadowfd p.binds oldfd) := by rw [hw, if_pos rfl]
  have hold : w.fdt (dsuShadowfd p.binds oldfd) = p.world.fdt (dsuShadowfd p.binds oldfd) := by
    rw [hw]
    split <;> rfl
  constructor
  · intro h
    have hown : dsuShadowfd p.binds newfd = newfd := hresult.symm.trans h.result
    refine ⟨hown, ?_, fun hbound => tracksAccepted_iff.mp (h.tracked hbound)⟩
    cases hfile : p.world.fdt newfd with
    | none => exact .inl rfl
    | some file =>
      by_cases hsame : some file = p.world.fdt (dsuShadowfd p.binds oldfd)
      · exact .inr (.inl hsame)
      · refine .inr (.inr ?_)
        have hgone := h.gone file (by rw [hown, hfile]) fun he => hsame (he.symm.trans hnew)
        rwa [hown] at hgone
  · intro h
    refine ⟨hresult.trans h.own, ⟨?_, hnew.trans hold.symm⟩, fun file hfile hne => ?_,
      fun hbound => tracksAccepted_iff.mpr (h.bound hbound)⟩
    · unfold World.isOpen at hopen ⊢
      rwa [hnew]
    · have hchanged : p.world.fdt newfd ≠ p.world.fdt (dsuShadowfd p.binds oldfd) := by
        rw [h.own] at hfile
        rw [hfile]
        exact fun he => hne (hnew.trans he.symm)
      rw [h.own] at hfile ⊢
      rcases h.slot with hslot | hslot | hslot
      · rw [hfile] at hslot
        cases hslot
      · exact absurd hslot hchanged
      · exact hslot

theorem dup2_contract_iff (h : (dup2 K granted p oldfd newfd).1 ≠ -1) :
    DupContract p (dup2 K granted p oldfd newfd).2 oldfd newfd (dup2 K granted p oldfd newfd).1 ↔
      DupPlain p oldfd newfd := by
  obtain ⟨hopen, hresult, hw⟩ := World.dup2_granted h
  exact contract_iff hopen hresult hw

theorem dup3_contract_iff (h : (dup3 K granted p oldfd newfd).1 ≠ -1) :
    DupContract p (dup3 K granted p oldfd newfd).2 oldfd newfd (dup3 K granted p oldfd newfd).1 ↔
      DupPlain p oldfd newfd := by
  have hsame : dup3 K granted p oldfd newfd = dup2 K granted p oldfd newfd := by
    unfold dup3 dup2
    rw [World.dup3_granted h]
  rw [hsame] at h ⊢
  exact dup2_contract_iff h

/-- A `dup2` or `dup3` keeps its contract if and only if `newfd` has its own number for shadow, is free or stands for
the file of `oldfd` or for one that no list stands for, and is bound when `oldfd` is. A connection that is accepted
through the result of a `dup` is tracked if and only if the result is bound when `oldfd` is. -/
theorem dup_contracts_iff (K : Kernel) (granted : Bool) (p : Proc) (oldfd newfd : Int) :
    (∀ n, K.number p.world = some n → (dup K p oldfd).1 = n →
      (DupTracks p (dup K p oldfd).2 oldfd n ↔
        ((dsuSocketsSearchFd p.binds oldfd).isSome → (dsuSocketsSearchFd p.binds n).isSome))) ∧
    ((dup2 K granted p oldfd newfd).1 ≠ -1 →
      (DupContract p (dup2 K granted p oldfd newfd).2 oldfd newfd (dup2 K granted p oldfd newfd).1 ↔
        DupPlain p oldfd newfd)) ∧
    ((dup3 K granted p oldfd newfd).1 ≠ -1 →
      (DupContract p (dup3 K granted p oldfd newfd).2 oldfd newfd (dup3 K granted p oldfd newfd).1 ↔
        DupPlain p oldfd newfd)) :=
  ⟨fun _ _ _ => imp_congr_right fun _ => tracksAccepted_iff, dup2_contract_iff, dup3_contract_iff⟩

/-- A program duplicates its bound socket 3 onto itself, and the client 5 that it has accepted there to 6 and to 7. -/
theorem dup_contracts_bound : ∃ p, (procMachine soloKernel).run .loaded [.socket, .bind 3 8080, .accept 3] = some p ∧
    (dup soloKernel p 5).1 = 6 ∧ DupTracks p (dup soloKernel p 5).2 5 6 ∧
    (dup2 soloKernel true p 3 3).1 = 3 ∧ DupContract p (dup2 soloKernel true p 3 3).2 3 3 3 ∧
    (dup3 soloKernel true p 5 7).1 = 7 ∧ DupContract p (dup3 soloKernel true p 5 7).2 5 7 7 := by
  refine ⟨_, rfl, rfl, ?_, rfl, ?_, rfl, ?_⟩
  · exact ((dup_contracts_iff soloKernel true _ 5 7).1 6 rfl rfl).mpr (by decide)
  · exact ((dup_contracts_iff soloKernel true _ 3 3).2.1 (by decide)).mpr ⟨rfl, .inr (.inl rfl), fun _ => rfl⟩
  · exact ((dup_contracts_iff soloKernel true _ 5 7).2.2 (by decide)).mpr ⟨rfl, .inl rfl, fun h => absurd h (by decide)⟩

/-- A program listens on its bound socket 3 and on the duplicate 8 of it. A connection that comes through 8 is not
tracked. And where socket 3 was inherited with the shadow 5, `dup2(0, 3)` returns 5 and closes the shadow. -/
theorem duplicate_untracked :
    (∃ p q u v, (procMachine soloKernel).run .loaded [.socket, .bind 3 8080] = some p ∧
      dup3 soloKernel true p 3 8 = (8, q) ∧ accept soloKernel q 3 = (5, u) ∧ u.binds.map DsuSocket.fds = [[5]] ∧
      accept soloKernel q 8 = (5, v) ∧ v.binds.map DsuSocket.fds = [[]] ∧ ¬DupContract p q 3 8 8) ∧
    ∃ p q, (procMachine heirKernel).run .loaded [.socket, .bind 3 8080] = some p ∧
      p.binds.map DsuSocket.names = [(3, 5)] ∧ dup2 heirKernel true p 0 3 = (5, q) ∧
      q.world.fdt 5 = p.world.fdt 0 ∧ ¬DupContract p q 0 3 5 := by
  refine ⟨⟨_, _, _, _, rfl, rfl, rfl, rfl, rfl, rfl, fun h => ?_⟩, _, _, rfl, rfl, rfl, rfl, fun h => ?_⟩
  · exact absurd (tracksAccepted_iff.mp (h.tracked rfl)) (by decide)
  · exact absurd h.result (by decide)

end OpenDSU
