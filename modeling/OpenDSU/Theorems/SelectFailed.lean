import OpenDSU.Theorems.SelectTransparent

/-! What a `select` whose kernel wait fails leaves in the sets of the program.

The sets as they were are put back for a restart only: an error is passed on with the read set that the kernel was
asked with. -/

open Relation

namespace OpenDSU

variable {K : Kernel} {p q start : Proc} {nfds : Int} {sets out : FdSets} {timeout : Option Nat} {r : DsuSocket}
  {s : SelectPass}

/-- The records whose sockets are in the set are monitored under these very numbers, and the wait may include them. -/
def PutBack (K : Kernel) : List DsuSocket → SelectPass → Prop
  | [], _ => True
  | r :: l, s =>
    (r.fd ∈ s.reads →
      r.shadowfd = r.fd ∧ r.monitoring = true ∧ (tryMonitor K r s.transfer s.world).1 ≠ .refused) ∧
    PutBack K l (dsuPreSelect K r s).2

/-- Neither pass over the records has anything to change in the read set. -/
def Unmoved (K : Kernel) (start : Proc) (nfds : Int) (sets : FdSets) : Prop :=
  sets.read = none ∨
    PutBack K start.binds (start.pass sets.read nfds) ∧ ∀ g, Watched start.binds g → g ∈ sets.read.getD ∅

/-! ### The first pass -/

theorem dsuPreSelect_putBack (h : r.fd ∈ s.reads →
      r.shadowfd = r.fd ∧ r.monitoring = true ∧ (tryMonitor K r s.transfer s.world).1 ≠ .refused) :
    (dsuPreSelect K r s).2.readfds = s.readfds := by
  unfold dsuPreSelect
  by_cases hfd : fdIsset r.fd s.readfds = true
  · obtain ⟨hshadowfd, hmonitoring, haccess⟩ := h (fdIsset_iff.mp hfd)
    have hback : fdSet r.shadowfd (fdClr r.fd s.readfds) = s.readfds := by
      rw [hshadowfd]
      cases hset : s.readfds with
      | none => rfl
      | some S =>
        have hmem : r.fd ∈ S := by simpa [fdIsset, hset] using hfd
        exact congrArg some (Finset.insert_erase hmem)
    rw [if_pos hfd, if_pos hmonitoring]
    simp only
    cases hcase : (tryMonitor K r s.transfer s.world).1 with
    | refused => exact absurd hcase haccess
    | free => exact hback
    | locked => exact hback
  · rw [if_neg hfd]

theorem walk_putBack (l : List DsuSocket) (s : SelectPass) (h : PutBack K l s) :
    (walk (dsuPreSelect K) l s).2.readfds = s.readfds := by
  induction l generalizing s with
  | nil => rfl
  | cons r l ih => exact (ih _ h.2).trans (dsuPreSelect_putBack h.1)

/-- A socket that is not put back is gone, and only a shadow can bring its number again. -/
theorem dsuPreSelect_moved (hmem : r.fd ∈ (dsuPreSelect K r s).2.reads) (hfd : r.fd ∈ s.reads) :
    r.shadowfd = r.fd ∧ r.monitoring = true ∧ (tryMonitor K r s.transfer s.world).1 ≠ .refused := by
  have hclr : r.fd ∉ (fdClr r.fd s.readfds).getD ∅ := by
    rw [fdClr_getD]
    exact Finset.notMem_erase _ _
  have hset (hin : r.fd ∈ (fdSet r.shadowfd (fdClr r.fd s.readfds)).getD ∅) : r.shadowfd = r.fd := by
    rcases Finset.mem_insert.mp (fdSet_getD_subset _ _ hin) with h | h
    · exact h.symm
    · exact absurd h hclr
  unfold dsuPreSelect at hmem
  rw [if_pos (fdIsset_iff.mpr hfd)] at hmem
  simp only at hmem
  split at hmem
  · rename_i hmonitoring
    cases hcase : (tryMonitor K r s.transfer s.world).1 with
    | refused =>
      rw [hcase] at hmem
      exact absurd hmem hclr
    | free =>
      rw [hcase] at hmem
      exact ⟨hset hmem, hmonitoring, by simp⟩
    | locked =>
      rw [hcase] at hmem
      exact ⟨hset hmem, hmonitoring, by simp⟩
  · exact absurd hmem hclr

theorem walk_preSelect_mem (l : List DsuSocket) (s : SelectPass) {g : Int}
    (hg : g ∈ (walk (dsuPreSelect K) l s).2.reads) : g ∈ s.reads ∨ ∃ r ∈ l, r.shadowfd = g := by
  induction l generalizing s with
  | nil => exact .inl hg
  | cons r l ih =>
    rcases ih _ hg with h | ⟨x, hx, h⟩
    · have hrename := dsuPreSelect_reads r s h
      unfold rename at hrename
      split at hrename
      · rcases Finset.mem_insert.mp hrename with h | h
        · exact .inr ⟨r, List.mem_cons_self, h.symm⟩
        · exact .inl (Finset.mem_of_mem_erase h)
      · exact .inl hrename
    · exact .inr ⟨x, List.mem_cons_of_mem _ hx, h⟩

/-- As long as the records are apart, a socket that is still there after the walk was put back. -/
theorem putBack_of_mem {l : List DsuSocket} (h : (l.map DsuSocket.names).Pairwise fun a b => a.1 ≠ b.2) (s : SelectPass)
    (hkept : ∀ r ∈ l, r.fd ∈ s.reads → r.fd ∈ (walk (dsuPreSelect K) l s).2.reads) : PutBack K l s := by
  induction l generalizing s with
  | nil => trivial
  | cons r l ih =>
    obtain ⟨hr, hl⟩ := List.pairwise_cons.mp h
    have hfirst (hfd : r.fd ∈ s.reads) :
        r.shadowfd = r.fd ∧ r.monitoring = true ∧ (tryMonitor K r s.transfer s.world).1 ≠ .refused := by
      rcases walk_preSelect_mem l _ (hkept r List.mem_cons_self hfd) with hmem | ⟨x, hx, hshadowfd⟩
      · exact dsuPreSelect_moved hmem hfd
      · exact absurd hshadowfd.symm (hr x.names (List.mem_map_of_mem hx))
    refine ⟨hfirst, ih hl _ fun x hx hfd => hkept x (List.mem_cons_of_mem _ hx) ?_⟩
    unfold SelectPass.reads at hfd ⊢
    rwa [dsuPreSelect_putBack hfirst] at hfd

/-! ### The second pass -/

theorem foldl_listen_some {S : FdSet} (ds : List Int) {s : SelectPass} (h : s.readfds = some S) :
    (ds.foldl SelectPass.listen s).readfds = some (S ∪ ds.toFinset) := by
  induction ds generalizing s S with
  | nil => simpa using h
  | cons d ds ih =>
    have hd : (s.listen d).readfds = some (insert d S) := by
      change fdSet d s.readfds = _
      rw [h]
      rfl
    rw [List.foldl_cons, ih hd, List.toFinset_cons, Finset.insert_union, Finset.union_insert]

theorem dsuSniffConn_some {S : FdSet} (h : s.readfds = some S) :
    (dsuSniffConn r s).2.readfds = some (S ∪ r.watched.toFinset) := by
  have hall := foldl_listen_some r.watched h
  unfold dsuSniffConn
  rw [h, Option.isNone_some, if_neg (by decide)]
  unfold DsuSocket.watched at hall ⊢
  cases hmonitoring : r.monitoring with
  | true => simpa [hmonitoring] using hall
  | false => simpa [hmonitoring] using hall

theorem walk_sniffConn_some {S : FdSet} (l : List DsuSocket) (s : SelectPass) (h : s.readfds = some S) :
    (walk dsuSniffConn l s).2.readfds = some (S ∪ (l.flatMap DsuSocket.watched).toFinset) := by
  induction l generalizing s S with
  | nil => simpa using h
  | cons r l ih =>
    rw [walk_cons, ih _ (dsuSniffConn_some h), List.flatMap_cons, List.toFinset_append, Finset.union_assoc]

theorem watched_iff {binds : List DsuSocket} {g : Int} :
    Watched binds g ↔ g ∈ (binds.flatMap DsuSocket.watched).toFinset := by
  simp [Watched]

/-! ### The sets of the kernel wait -/

/-- The read set of the kernel wait: what the first pass leaves, and what the library watches. -/
theorem asked_read (K : Kernel) (start : Proc) (nfds : Int) (timeout : Option Nat) {S : FdSet}
    (hread : sets.read = some S) :
    ∃ S₁, (walk (dsuPreSelect K) start.binds (start.pass sets.read nfds)).2.readfds = some S₁ ∧
      (selectAsk K start nfds sets timeout).asked.read =
        some (S₁ ∪ (start.binds.flatMap DsuSocket.watched).toFinset) := by
  have hasks := walk_within (f := dsuPreSelect K) (dsuPreSelect_asks K) [] start.binds (start.pass sets.read nfds)
  have hwatched := asks_map (g := DsuSocket.watched) (fun _ => rfl) hasks
  have hsome : (walk (dsuPreSelect K) start.binds (start.pass sets.read nfds)).2.readfds.isSome = true :=
    (walk_state (g := fun s : SelectPass => s.readfds.isSome) dsuPreSelect_isSome _ _).trans
      (congrArg Option.isSome hread)
  obtain ⟨S₁, hS₁⟩ := Option.isSome_iff_exists.mp hsome
  refine ⟨S₁, hS₁, (walk_sniffConn_some _ _ hS₁).trans ?_⟩
  rw [List.flatMap_def, List.flatMap_def]
  exact congrArg (fun l : List (List Int) => some (S₁ ∪ l.flatten.toFinset)) hwatched

theorem asked_eq_iff : (selectAsk K start nfds sets timeout).asked = sets ↔
    (selectAsk K start nfds sets timeout).asked.read = sets.read := by
  have hasked : (selectAsk K start nfds sets timeout).asked =
      { sets with read := (selectAsk K start nfds sets timeout).asked.read } := rfl
  refine ⟨congrArg FdSets.read, fun h => ?_⟩
  rw [hasked, h]

/-- The kernel is asked with the sets of the program when there is nothing to move. -/
theorem asked_of_unmoved (h : Unmoved K start nfds sets) : (selectAsk K start nfds sets timeout).asked = sets := by
  rw [asked_eq_iff]
  cases hread : sets.read with
  | none =>
    have hnull : (selectAsk K start nfds sets timeout).asked.read.isSome = false :=
      selectAsk_isSome.trans (congrArg Option.isSome hread)
    exact Option.not_isSome_iff_eq_none.mp (by simp [hnull])
  | some S =>
    obtain ⟨hback, hwatched⟩ := h.resolve_left (by simp [hread])
    obtain ⟨S₁, hS₁, hasked⟩ := asked_read K start nfds timeout hread
    have hsame : some S₁ = some S := by
      rw [← hS₁, walk_putBack _ _ hback]
      exact hread
    rw [hasked, Option.some.inj hsame]
    refine congrArg some (Finset.union_eq_left.mpr fun g hg => ?_)
    have := hwatched g (watched_iff.mpr hg)
    rwa [hread] at this

/-- Where the records are apart, it is asked with other sets when there is. -/
theorem unmoved_of_asked (hapart : Apart start.binds) (h : (selectAsk K start nfds sets timeout).asked = sets) :
    Unmoved K start nfds sets := by
  cases hread : sets.read with
  | none => exact .inl hread
  | some S =>
    obtain ⟨S₁, hS₁, hasked⟩ := asked_read K start nfds timeout hread
    have hunion : S₁ ∪ (start.binds.flatMap DsuSocket.watched).toFinset = S := by
      have hsame := asked_eq_iff.mp h
      rw [hasked, hread] at hsame
      exact Option.some.inj hsame
    refine .inr ⟨putBack_of_mem (hapart.names.imp fun hab => hab.2.1) _ fun r hr hfd => ?_, fun g hg => ?_⟩
    · change r.fd ∈ sets.read.getD ∅ at hfd
      rw [hread, Option.getD_some, ← hunion] at hfd
      unfold SelectPass.reads
      rw [hS₁]
      exact (Finset.mem_union.mp hfd).resolve_right fun hw => hapart.sockets r hr (watched_iff.mpr hw)
    · rw [hread, Option.getD_some, ← hunion]
      exact Finset.mem_union_right _ (watched_iff.mp hg)

/-! ### A failed wait -/

/-- The state in which the last round of a `select` translates its sets, when its kernel wait fails. -/
def Proc.failed (K : Kernel) (p : Proc) (nfds : Int) (sets : FdSets) (timeout : Option Nat) (rounds : Nat) :
    Option Proc :=
  let start := dsuInitializeEvent K (selectLast K nfds sets timeout rounds p)
  let wait := selectAsk K start nfds sets timeout
  if start.exited then none
  else match (wait.proc.world.select K wait.maxFds wait.asked wait.timeout).1 with
    | none => some start
    | some _ => none

variable {rounds : Nat} {n : Int}

/-- The failed round returns -1 with the sets of its kernel wait. -/
theorem failed_of_select (hs : select K nfds sets timeout rounds p = some (q, .returned n out))
    (hfailed : p.failed K nfds sets timeout rounds = some start) :
    n = -1 ∧ out = (selectAsk K start nfds sets timeout).asked := by
  obtain ⟨hdone, -⟩ := select_eq_last hs
  unfold selectRound selectRest at hdone
  unfold Proc.failed at hfailed
  simp only at hdone hfailed
  generalize dsuInitializeEvent K (selectLast K nfds sets timeout rounds p) = s at hdone hfailed
  split at hfailed
  · cases hfailed
  · rename_i hexit
    split at hfailed
    · rename_i hnone
      obtain rfl := Option.some.inj hfailed
      rw [if_neg hexit, hnone] at hdone
      cases hdone
      exact ⟨rfl, rfl⟩
    · cases hfailed

theorem apart_of_failed (h : Distinct p.sockets p.binds p.world)
    (hfailed : p.failed K nfds sets timeout rounds = some start) : Apart start.binds := by
  unfold Proc.failed at hfailed
  simp only at hfailed
  split at hfailed
  · cases hfailed
  · split at hfailed
    · obtain rfl := Option.some.inj hfailed
      exact apart_of_last h rounds
    · cases hfailed

/-- A `select` whose kernel wait fails, in whatever round, leaves the write and the except set alone. It leaves the
read set alone when that is null or neither pass has anything to change in it; and only then, as long as the numbers
of the records are apart. They are in every run in which the program spares the numbers of the library. -/
theorem select_failed_iff (hs : select K nfds sets timeout rounds p = some (q, .returned n out))
    (hfailed : p.failed K nfds sets timeout rounds = some start) :
    n = -1 ∧ out.write = sets.write ∧ out.except = sets.except ∧ (Unmoved K start nfds sets → out = sets) ∧
      (Apart start.binds → (out = sets ↔ Unmoved K start nfds sets)) ∧
      ∀ loaded calls, loaded.Started → (procMachine K).run loaded calls = some p →
        (procMachine K).Steps (fun p call => call.Spares p) loaded calls → Apart start.binds := by
  obtain ⟨hn, rfl⟩ := failed_of_select hs hfailed
  refine ⟨hn, rfl, rfl, asked_of_unmoved, fun hapart => ⟨unmoved_of_asked hapart, asked_of_unmoved⟩,
    fun loaded calls h hrun hc => ?_⟩
  exact apart_of_failed (distinct_of_steps h hc hrun) hfailed

/-- Every wait of `select` is interrupted by a signal. -/
def interruptedKernel : Kernel := { soloKernel with select := fun _ _ => none }

/-- Another version has taken over the port, too. -/
def interruptedUpdate : Kernel :=
  { interruptedKernel with status := fun w port => { w.status port with version := 1 } }

/-- A superseded process waits to read from its client 5 and to write to descriptor 1: it no longer watches its `comfd`. -/
theorem select_failed_superseded : ∃ p q start out,
    (procMachine interruptedUpdate).run .loaded [.socket, .bind 3 8080, .accept 3] = some p ∧
    p.failed interruptedUpdate 6 ⟨some {5}, some {1}, none⟩ (some 0) 1 = some start ∧
    select interruptedUpdate 6 ⟨some {5}, some {1}, none⟩ (some 0) 1 p = some (q, .returned (-1) out) ∧
    start.binds.map DsuSocket.comfd = [4] ∧ Unmoved interruptedUpdate start 6 ⟨some {5}, some {1}, none⟩ ∧
    out = ⟨some {5}, some {1}, none⟩ := by
  have h : ∀ p q start out, (procMachine interruptedUpdate).run .loaded [.socket, .bind 3 8080, .accept 3] = some p →
      p.failed interruptedUpdate 6 ⟨some {5}, some {1}, none⟩ (some 0) 1 = some start →
      select interruptedUpdate 6 ⟨some {5}, some {1}, none⟩ (some 0) 1 p = some (q, .returned (-1) out) →
      Unmoved interruptedUpdate start 6 ⟨some {5}, some {1}, none⟩ → out = ⟨some {5}, some {1}, none⟩ :=
    fun p q start out _ hfailed hs => (select_failed_iff hs hfailed).2.2.2.1
  refine ⟨_, _, _, _, rfl, rfl, rfl, rfl, (fun hunmoved => ⟨hunmoved, h _ _ _ _ rfl rfl rfl hunmoved⟩) (.inr ?_)⟩
  exact ⟨⟨fun hfd => absurd hfd (by decide), trivial⟩, fun g hg => absurd (watched_iff.mp hg) (Finset.notMem_empty g)⟩

/-- A program waits to read from its bound socket 3: after the error its set has the `comfd` 4, too. -/
theorem interrupted_select_adds_comfd : ∃ p q start out,
    (procMachine interruptedKernel).run .loaded [.socket, .bind 3 8080] = some p ∧
    p.failed interruptedKernel 4 ⟨some {3}, none, none⟩ (some 0) 1 = some start ∧
    select interruptedKernel 4 ⟨some {3}, none, none⟩ (some 0) 1 p = some (q, .returned (-1) out) ∧
    out.read = some {3, 4} ∧ out ≠ ⟨some {3}, none, none⟩ := by
  refine ⟨_, _, _, _, rfl, rfl, rfl, by decide, fun h => ?_⟩
  exact absurd (congrArg (fun s : FdSets => decide (4 ∈ s.read.getD ∅)) h) (by decide)

end OpenDSU
