import OpenDSU.Theorems.Numbers

/-! Whether `select` hides the library from the program.

The read set is rewritten by four passes over the records. Before the wait the bound sockets are renamed and
the internal descriptors added; after it the handlers take out every number that a record has for a `comfd` or
a connection, and what is left is renamed back. -/

open Relation

namespace OpenDSU

variable {K : Kernel} {p q : Proc} {w : World} {binds : List DsuSocket}

/-- The members of the read set; a null set has none. -/
def SelectPass.reads (s : SelectPass) : FdSet := s.readfds.getD ∅

theorem fdIsset_iff {fd : Int} {set : Option FdSet} : fdIsset fd set = true ↔ fd ∈ set.getD ∅ := by
  cases set <;> simp [fdIsset]

theorem fdClr_getD (fd : Int) (set : Option FdSet) : (fdClr fd set).getD ∅ = (set.getD ∅).erase fd := by
  cases set <;> simp [fdClr]

theorem fdSet_getD_subset (fd : Int) (set : Option FdSet) : (fdSet fd set).getD ∅ ⊆ insert fd (set.getD ∅) := by
  cases set <;> simp [fdSet]

/-! ### Before the wait -/

/-- The socket of the record is renamed, or dropped. -/
theorem dsuPreSelect_reads (r : DsuSocket) (s : SelectPass) :
    (dsuPreSelect K r s).2.reads ⊆ rename r.fd r.shadowfd s.reads := by
  unfold dsuPreSelect rename
  by_cases hfd : fdIsset r.fd s.readfds = true
  · have hmem : r.fd ∈ s.reads := fdIsset_iff.mp hfd
    have hclr : (fdClr r.fd s.readfds).getD ∅ = s.reads.erase r.fd := fdClr_getD _ _
    have hdrop : (fdClr r.fd s.readfds).getD ∅ ⊆ insert r.shadowfd (s.reads.erase r.fd) := by
      rw [hclr]
      exact Finset.subset_insert _ _
    have hset : (fdSet r.shadowfd (fdClr r.fd s.readfds)).getD ∅ ⊆ insert r.shadowfd (s.reads.erase r.fd) := by
      rw [← hclr]
      exact fdSet_getD_subset _ _
    rw [if_pos hfd, if_pos hmem]
    simp only
    split
    · cases (tryMonitor K r s.transfer s.world).1 with
      | refused => exact hdrop
      | free => exact hset
      | locked => exact hset
    · exact hdrop
  · have hmem : r.fd ∉ s.reads := fun h => hfd (fdIsset_iff.mpr h)
    rw [if_neg hfd, if_neg hmem]

theorem walk_preSelect_reads (l : List DsuSocket) (s : SelectPass) :
    (walk (dsuPreSelect K) l s).2.reads ⊆ renameAll (l.map DsuSocket.names) s.reads := by
  induction l generalizing s with
  | nil => exact Finset.Subset.refl _
  | cons r l ih => exact (ih _).trans (renameAll_mono _ (dsuPreSelect_reads r s))

theorem foldl_listen_reads (cs : List Int) (s : SelectPass) {g : Int} (hg : g ∈ (cs.foldl SelectPass.listen s).reads) :
    g ∈ s.reads ∨ g ∈ cs := by
  induction cs generalizing s with
  | nil => exact Or.inl hg
  | cons c cs ih =>
    rcases ih _ hg with h | h
    · rcases Finset.mem_insert.mp (fdSet_getD_subset c s.readfds h) with rfl | h
      · exact Or.inr List.mem_cons_self
      · exact Or.inl h
    · exact Or.inr (List.mem_cons_of_mem _ h)

theorem dsuSniffConn_reads (r : DsuSocket) (s : SelectPass) {g : Int} (hg : g ∈ (dsuSniffConn r s).2.reads) :
    g ∈ s.reads ∨ g ∈ r.watched := by
  have hwatched : r.watched.foldl SelectPass.listen s =
      r.comfds.foldl SelectPass.listen (if r.monitoring then s.listen r.comfd else s) := by
    unfold DsuSocket.watched
    split <;> rfl
  unfold dsuSniffConn at hg
  split at hg
  · exact Or.inl hg
  · simp only [← hwatched] at hg
    exact foldl_listen_reads _ _ hg

theorem walk_sniffConn_reads (l : List DsuSocket) (s : SelectPass) {g : Int}
    (hg : g ∈ (walk dsuSniffConn l s).2.reads) : g ∈ s.reads ∨ Watched l g := by
  induction l generalizing s with
  | nil => exact Or.inl hg
  | cons r l ih =>
    rcases ih _ hg with h | ⟨x, hx, h⟩
    · exact (dsuSniffConn_reads r s h).imp_right fun h => ⟨r, List.mem_cons_self, h⟩
    · exact Or.inr ⟨x, List.mem_cons_of_mem _ hx, h⟩

/-! ### The handlers -/

/-- Some record has the number as its `comfd`, monitored or not, or in `comfds`. -/
def Taken (binds : List DsuSocket) (g : Int) : Prop := g ∈ binds.flatMap fun r => r.comfd :: r.comfds

instance (binds : List DsuSocket) : DecidablePred (Taken binds) := fun _ => inferInstanceAs (Decidable (_ ∈ _))

theorem Watched.taken {g : Int} (h : Watched binds g) : Taken binds g := by
  obtain ⟨r, hr, hg⟩ := h
  refine List.mem_flatMap.mpr ⟨r, hr, ?_⟩
  rcases List.mem_append.mp hg with hg | hg
  · split at hg
    · exact List.mem_cons.mpr (Or.inl (List.mem_singleton.mp hg))
    · cases hg
  · exact List.mem_cons_of_mem _ hg

/-- The members of the read set are open. -/
def SelectPass.Open (s : SelectPass) : Prop := ∀ f ∈ s.reads, s.world.fdt f ≠ none

/-- The handlers take the members that satisfy `P` out of the read set and count them. -/
structure Removes (P : Int → Prop) [DecidablePred P] (s s' : SelectPass) : Prop where
  reads : s'.reads = s.reads.filter (¬P ·)
  count : (s'.reads.card : Int) + s'.correction = s.reads.card + s.correction
  isOpen : s'.Open

section Removes
variable {P Q : Int → Prop} [DecidablePred P] [DecidablePred Q] {s s' s'' : SelectPass}

theorem Removes.none (h : ∀ f ∈ s.reads, ¬P f) (ho : s.Open) : Removes P s s where
  reads := (Finset.filter_true_of_mem h).symm
  count := rfl
  isOpen := ho

theorem Removes.congr (h : Removes P s s') (hq : ∀ f ∈ s.reads, P f ↔ Q f) : Removes Q s s' where
  reads := h.reads.trans (Finset.filter_congr fun f hf => not_congr (hq f hf))
  count := h.count
  isOpen := h.isOpen

theorem Removes.trans (h : Removes P s s') (h' : Removes Q s' s'') : Removes (fun f => P f ∨ Q f) s s'' where
  reads := by
    rw [h'.reads, h.reads, Finset.filter_filter]
    exact Finset.filter_congr fun f _ => not_or.symm
  count := h'.count.trans h.count
  isOpen := h'.isOpen

/-- A descriptor is served, and no other is closed. -/
theorem removes_served {c : Int} {w : World} (hc : c ∈ s.reads) (ho : s.Open)
    (hw : ∀ f, f ≠ c → s.world.fdt f ≠ none → w.fdt f ≠ none) : Removes (· = c) s (s.served c w) where
  reads := by
    change (fdClr c s.readfds).getD ∅ = _
    rw [fdClr_getD]
    exact (Finset.filter_ne' _ c).symm
  count := by
    change (((fdClr c s.readfds).getD ∅).card : Int) + (s.correction + 1) = _
    rw [fdClr_getD]
    change ((s.reads.erase c).card : Int) + (s.correction + 1) = _
    have := Finset.card_erase_add_one hc
    omega
  isOpen f hf := by
    change f ∈ (fdClr c s.readfds).getD ∅ at hf
    rw [fdClr_getD] at hf
    obtain ⟨hne, hf⟩ := Finset.mem_erase.mp hf
    exact hw f hne (ho f hf)

end Removes

theorem dsuHandleComfds_removes (cs : List Int) (r : DsuSocket) (s : SelectPass) (ho : s.Open) :
    Removes (· ∈ cs) s (dsuHandleComfds K cs r s).2 := by
  induction cs generalizing r s with
  | nil => exact .none (by simp) ho
  | cons c cs ih =>
    rw [dsuHandleComfds_cons]
    by_cases hc : fdIsset c s.readfds = true
    · rw [if_pos hc]
      have hserved : Removes (· = c) s (s.served c (answerConn K c r s.world).2.2) := by
        refine removes_served (fdIsset_iff.mp hc) ho fun f hne hf => ?_
        rcases answerConn_cases K r s.world c with ⟨-, -, -, hw⟩ | ⟨-, -, hw, -⟩
        · rw [hw.fdt]
          simpa [hne] using hf
        · rw [hw.fdt]
          exact hf
      exact (hserved.trans (ih _ _ hserved.isOpen)).congr fun f _ => List.mem_cons.symm
    · rw [if_neg hc]
      refine (ih r s ho).congr fun f hf => ?_
      have hne : f ≠ c := fun he => hc (fdIsset_iff.mpr (he ▸ hf))
      simp [hne]

/-- A connection accepted now is not in the read set. -/
theorem dsuHandleConn_removes (r : DsuSocket) (s : SelectPass) (ho : s.Open) :
    Removes (· ∈ r.comfd :: r.comfds) s (dsuHandleConn K r s).2 := by
  rw [dsuHandleConn_eq]
  by_cases hc : fdIsset r.comfd s.readfds = true
  · rw [if_pos hc]
    have hserved : Removes (· = r.comfd) s (s.served r.comfd (acceptConn K r s.world).2) := by
      refine removes_served (fdIsset_iff.mp hc) ho fun f _ hf => ?_
      rcases acceptConn_cases K r s.world with ⟨-, hw⟩ | ⟨c, -, hw⟩ <;> rw [hw.fdt]
      · exact hf
      · simp only
        split
        · simp
        · exact hf
    refine (hserved.trans (dsuHandleComfds_removes _ _ _ hserved.isOpen)).congr fun f hf => ?_
    rw [List.mem_cons]
    refine or_congr_right ?_
    rcases acceptConn_cases K r s.world with ⟨hr, -⟩ | ⟨c, hr, hw⟩ <;> rw [hr]
    have hne : f ≠ c := fun he => ho f hf (he ▸ hw.free)
    simp [hne]
  · rw [if_neg hc]
    refine (dsuHandleComfds_removes _ _ _ ho).congr fun f hf => ?_
    have hne : f ≠ r.comfd := fun he => hc (fdIsset_iff.mpr (he ▸ hf))
    simp [hne]

theorem walk_handleConn_removes (l : List DsuSocket) (s : SelectPass) (ho : s.Open) :
    Removes (Taken l) s (walk (dsuHandleConn K) l s).2 := by
  induction l generalizing s with
  | nil => exact .none (by simp [Taken]) ho
  | cons r l ih =>
    have hr := dsuHandleConn_removes (K := K) r s ho
    exact (hr.trans (ih _ hr.isOpen)).congr fun f _ => by simp [Taken, or_assoc]

/-! ### After the handlers -/

theorem unlockFd_names (r : DsuSocket) (w : World) : (unlockFd r w).1.names = r.names := by
  unfold unlockFd
  split <;> rfl

/-- The socket of the record gets its name back. -/
theorem dsuPostSelect_reads (r : DsuSocket) (s : SelectPass) :
    (dsuPostSelect r s).2.reads = rename r.shadowfd r.fd s.reads ∧ (dsuPostSelect r s).2.correction = s.correction := by
  obtain ⟨hfd, hshadow⟩ := Prod.ext_iff.mp (unlockFd_names r s.world)
  change (unlockFd r s.world).1.fd = r.fd at hfd
  change (unlockFd r s.world).1.shadowfd = r.shadowfd at hshadow
  unfold dsuPostSelect rename SelectPass.reads
  simp only [hfd, hshadow]
  cases hS : s.readfds with
  | none => simp [fdIsset]
  | some S =>
    by_cases hmem : r.shadowfd ∈ S
    · simp [fdIsset, hmem, fdSet, fdClr]
    · simp [fdIsset, hmem]

theorem walk_postSelect_reads (l : List DsuSocket) (s : SelectPass) :
    (walk dsuPostSelect l s).2.reads = renameAll ((l.map DsuSocket.names).map Prod.swap) s.reads ∧
    (walk dsuPostSelect l s).2.correction = s.correction := by
  induction l generalizing s with
  | nil => exact ⟨rfl, rfl⟩
  | cons r l ih =>
    obtain ⟨hreads, hcount⟩ := dsuPostSelect_reads r s
    obtain ⟨hrest, hrestCount⟩ := ih (dsuPostSelect r s).2
    rw [hreads] at hrest
    exact ⟨hrest, hrestCount.trans hcount⟩

/-! ### Null sets -/

theorem fdClr_isSome (fd : Int) (set : Option FdSet) : (fdClr fd set).isSome = set.isSome := by simp [fdClr]

theorem fdSet_isSome (fd : Int) (set : Option FdSet) : (fdSet fd set).isSome = set.isSome := by simp [fdSet]

theorem dsuPreSelect_isSome (r : DsuSocket) (s : SelectPass) :
    (dsuPreSelect K r s).2.readfds.isSome = s.readfds.isSome := by
  unfold dsuPreSelect
  split
  · simp only
    split
    · cases (tryMonitor K r s.transfer s.world).1 with
      | refused => exact fdClr_isSome _ _
      | free => exact (fdSet_isSome _ _).trans (fdClr_isSome _ _)
      | locked => exact (fdSet_isSome _ _).trans (fdClr_isSome _ _)
    · exact fdClr_isSome _ _
  · rfl

theorem foldl_listen_isSome (cs : List Int) (s : SelectPass) :
    (cs.foldl SelectPass.listen s).readfds.isSome = s.readfds.isSome := by
  induction cs generalizing s with
  | nil => rfl
  | cons c cs ih => exact (ih _).trans (fdSet_isSome c s.readfds)

theorem dsuSniffConn_isSome (r : DsuSocket) (s : SelectPass) :
    (dsuSniffConn r s).2.readfds.isSome = s.readfds.isSome := by
  unfold dsuSniffConn
  split
  · rfl
  · rw [foldl_listen_isSome]
    split
    · exact fdSet_isSome _ _
    · rfl

theorem dsuHandleComfds_isSome (cs : List Int) (r : DsuSocket) (s : SelectPass) :
    (dsuHandleComfds K cs r s).2.readfds.isSome = s.readfds.isSome := by
  induction cs generalizing r s with
  | nil => rfl
  | cons c cs ih =>
    rw [dsuHandleComfds_cons]
    split
    · exact (ih _ _).trans (fdClr_isSome c s.readfds)
    · exact ih r s

theorem dsuHandleConn_isSome (r : DsuSocket) (s : SelectPass) :
    (dsuHandleConn K r s).2.readfds.isSome = s.readfds.isSome := by
  rw [dsuHandleConn_eq]
  split
  · exact (dsuHandleComfds_isSome _ _ _).trans (fdClr_isSome _ _)
  · exact dsuHandleComfds_isSome _ _ _

theorem dsuPostSelect_isSome (r : DsuSocket) (s : SelectPass) :
    (dsuPostSelect r s).2.readfds.isSome = s.readfds.isSome := by
  unfold dsuPostSelect
  simp only
  split
  · exact (fdSet_isSome _ _).trans (fdClr_isSome _ _)
  · rfl

/-! ### A round -/

variable {nfds : Int} {sets found out : FdSets} {timeout : Option Nat}

/-- The kernel is asked for the caller's descriptors, by their names, and for watched ones. -/
theorem selectAsk_reads (h : Apart p.binds) {g : Int} (hg : g ∈ (selectAsk K p nfds sets timeout).asked.read.getD ∅) :
    (∃ f ∈ sets.read.getD ∅, dsuShadowfd p.binds f = g) ∨ Watched p.binds g := by
  have hpre := walk_within (f := dsuPreSelect K) (dsuPreSelect_asks K) [] p.binds (p.pass sets.read nfds)
  rcases walk_sniffConn_reads _ _ hg with hg | hg
  · refine Or.inl ?_
    have hsub := walk_preSelect_reads (K := K) p.binds (p.pass sets.read nfds) hg
    rw [renameAll_eq_image (h.names.imp fun hab => hab.2.2)] at hsub
    obtain ⟨f, hf, hname⟩ := Finset.mem_image.mp hsub
    exact ⟨f, hf, (dsuShadowfd_eq p.binds f).trans hname⟩
  · exact Or.inr (hg.of_map (asks_map (g := DsuSocket.watched) (fun _ => rfl) hpre).symm)

theorem selectAsk_isSome :
    (selectAsk K p nfds sets timeout).asked.read.isSome = sets.read.isSome :=
  (walk_state (g := fun s : SelectPass => s.readfds.isSome) dsuSniffConn_isSome _ _).trans
    (walk_state (g := fun s : SelectPass => s.readfds.isSome) dsuPreSelect_isSome _ _)

/-- What the kernel reports: descriptors that it was asked for and that are open. -/
theorem World.select_found {n : Int} {asked : FdSets} (h : (w.select K n asked timeout).1 = some found) :
    (∀ g ∈ found.read.getD ∅, g ∈ asked.read.getD ∅ ∧ w.fdt g ≠ none) ∧
    found.read.isSome = asked.read.isSome ∧
    (∃ P : Int → Prop, ∃ _ : DecidablePred P, found.write = asked.write.map (·.filter P)) ∧
    ∃ P : Int → Prop, ∃ _ : DecidablePred P, found.except = asked.except.map (·.filter P) := by
  unfold select at h
  simp only at h
  split at h
  · rename_i hopen
    obtain ⟨ready, -, rfl⟩ := Option.map_eq_some_iff.mp h
    refine ⟨fun g hg => ?_, by simp, ⟨_, _, rfl⟩, ⟨_, _, rfl⟩⟩
    cases hread : asked.read with
    | none => simp [hread] at hg
    | some S =>
      simp only [hread, Option.map_some, Option.getD_some, Finset.mem_filter] at hg hopen ⊢
      refine ⟨hg.1, fun hnone => ?_⟩
      have := hopen.1 g hg.1 hg.2.1
      simp [isOpen, hnone] at this
  · cases h

/-- The size that `select` makes of the sets that the kernel reports: the handlers leave out what is taken. -/
theorem selectServe_size (found : FdSets) (hopen : ∀ g ∈ found.read.getD ∅, p.world.fdt g ≠ none) :
    (selectServe K p found).2.1 = (((found.read.getD ∅).filter (¬Taken p.binds ·)).card : Int) +
      (found.write.getD ∅).card + (found.except.getD ∅).card - p.correction := by
  have hremoves : Removes (Taken p.binds) (p.pass found.read 0) _ := walk_handleConn_removes (K := K) p.binds _ hopen
  unfold selectServe
  simp only
  generalize walk (dsuHandleConn K) p.binds (p.pass found.read 0) = served at hremoves ⊢
  have hcard := hremoves.count
  rw [hremoves.reads] at hcard
  change ((found.read.getD ∅).filter (¬Taken p.binds ·)).card + served.2.correction =
    ((found.read.getD ∅).card : Int) + p.correction at hcard
  rw [(walk_postSelect_reads served.1 served.2).2]
  unfold FdSets.size
  push_cast
  omega

/-- What `select` makes of the sets that the kernel reports. -/
theorem selectServe_sets (found : FdSets) (h : Apart p.binds) (hopen : ∀ g ∈ found.read.getD ∅, p.world.fdt g ≠ none) :
    (selectServe K p found).1.write = found.write ∧ (selectServe K p found).1.except = found.except ∧
    (selectServe K p found).1.read.isSome = found.read.isSome ∧
    (selectServe K p found).1.read.getD ∅ =
      ((found.read.getD ∅).filter (¬Taken p.binds ·)).image (dsuOriginalfd p.binds) ∧
    (selectServe K p found).2.1 = (((found.read.getD ∅).filter (¬Taken p.binds ·)).card : Int) +
      (found.write.getD ∅).card + (found.except.getD ∅).card - p.correction := by
  refine ⟨rfl, rfl, ?_, ?_, selectServe_size found hopen⟩
  · exact (walk_state (g := fun s : SelectPass => s.readfds.isSome) dsuPostSelect_isSome _ _).trans
      (walk_state (g := fun s : SelectPass => s.readfds.isSome) (dsuHandleConn_isSome (K := K)) _ _)
  · have hremoves : Removes (Taken p.binds) (p.pass found.read 0) _ := walk_handleConn_removes (K := K) p.binds _ hopen
    have hnames := (Changes.of_walk SelectPass.world (dsuHandleConn_effects K) p.binds (p.pass found.read 0)).names
    unfold selectServe
    simp only at hnames ⊢
    generalize walk (dsuHandleConn K) p.binds (p.pass found.read 0) = served at hremoves hnames ⊢
    obtain ⟨hreads, -⟩ := walk_postSelect_reads served.1 served.2
    rw [hnames, renameAll_eq_image (List.pairwise_map.mpr (h.names.imp fun hab => hab.2.1)), hremoves.reads] at hreads
    refine hreads.trans (Finset.image_congr fun g _ => ?_)
    exact (dsuOriginalfd_eq p.binds g).symm

/-! ### Transparency -/

/-- The descriptor is one that the library keeps for itself. -/
def Internal (binds : List DsuSocket) (d : Int) : Prop := Watched binds d ∨ ∃ r ∈ binds, d = r.shadowfd ∧ d ≠ r.fd

/-- `select` returns what the program would get without the library from a kernel that reports the sets `found`
    on the translated descriptors. -/
structure Transparent (binds : List DsuSocket) (nfds : Int) (sets found : FdSets) (n : Int) (out : FdSets) : Prop where
  read : out.read = sets.read.map (·.filter fun f => f < nfds ∧ dsuShadowfd binds f ∈ found.read.getD ∅)
  write : out.write = sets.write.map (·.filter fun f => f < nfds ∧ f ∈ found.write.getD ∅)
  except : out.except = sets.except.map (·.filter fun f => f < nfds ∧ f ∈ found.except.getD ∅)
  hidden : ∀ f, f ∈ out.read.getD ∅ ∨ f ∈ out.write.getD ∅ ∨ f ∈ out.except.getD ∅ → ¬Internal binds f
  size : n = out.size

/-- No event of the library is taken for one of the program, and none of the program for one of the library. A
    ready descriptor stands for the one requested descriptor below `nfds` that `dsu_originalfd` makes of it, or
    the handlers take it and it stands for none. -/
structure Clean (start : Proc) (nfds : Int) (sets found : FdSets) : Prop where
  correction : start.correction = 0
  read : ∀ g ∈ found.read.getD ∅, ∀ f, (f ∈ sets.read.getD ∅ ∧ f < nfds ∧ dsuShadowfd start.binds f = g) ↔
    (¬Taken start.binds g ∧ dsuOriginalfd start.binds g = f)
  write : ∀ f ∈ found.write.getD ∅, f < nfds ∧ ¬Internal start.binds f
  except : ∀ f ∈ found.except.getD ∅, f < nfds ∧ ¬Internal start.binds f

theorem eq_map_iff {a b : Option FdSet} (h : a.isSome = b.isSome) {F : FdSet → FdSet} (hF : F ∅ = ∅) :
    a = b.map F ↔ a.getD ∅ = F (b.getD ∅) := by
  cases a with
  | none =>
    cases b with
    | none => simp [hF]
    | some _ => cases h
  | some _ =>
    cases b with
    | none => cases h
    | some _ => simp

/-- A set that the kernel cuts down is the requested one below `nfds` if nothing from there on is ready. -/
theorem map_filter_below_iff {set found : Option FdSet} {P : Int → Prop} [DecidablePred P]
    (h : found = set.map (·.filter P)) :
    found = set.map (·.filter fun f => f < nfds ∧ f ∈ found.getD ∅) ↔ ∀ f ∈ found.getD ∅, f < nfds := by
  have hsome : found.isSome = set.isSome := by rw [h, Option.isSome_map]
  have hsub : ∀ f ∈ found.getD ∅, f ∈ set.getD ∅ := by
    rw [h]
    cases set <;> simp +contextual
  rw [eq_map_iff hsome (Finset.filter_empty _)]
  constructor
  · intro he f hf
    rw [he] at hf
    exact (Finset.mem_filter.mp hf).2.1
  · intro hlt
    ext f
    rw [Finset.mem_filter]
    exact ⟨fun hf => ⟨hsub f hf, hlt f hf, hf⟩, fun hf => hf.2.2⟩

section Transparent
variable {start : Proc} {n : Int}

/-- A descriptor that the handlers leave is the name of a descriptor of the caller. -/
theorem dsuShadowfd_originalfd (h : Apart binds) {S : FdSet} {g : Int}
    (hg : (∃ f ∈ S, dsuShadowfd binds f = g) ∨ Watched binds g) (ht : ¬Taken binds g) :
    dsuShadowfd binds (dsuOriginalfd binds g) = g := by
  rcases hg with ⟨f, -, rfl⟩ | hg
  · simp only [dsuShadowfd_eq, dsuOriginalfd_eq]
    exact nameOf_nameOf_swap (h.names.imp fun hab => hab.1) f
  · exact absurd hg.taken ht

/-- A name that is given back is a descriptor of the program. -/
theorem not_internal_originalfd (h : Apart binds) {g : Int} (ht : ¬Taken binds g) :
    ¬Internal binds (dsuOriginalfd binds g) := by
  have hself : ∀ r ∈ binds, ¬Internal binds r.fd := by
    rintro r hr (hw | ⟨x, hx, hfd, hne⟩)
    · exact h.sockets r hr hw
    · have hall := List.Pairwise.forall_of_forall_of_flip (R := fun a b : Int × Int => a.1 = b.2 → a.1 = b.1)
        (fun _ _ _ => rfl) (h.names.imp fun hab he => absurd he hab.2.1) (h.names.imp fun hab he => absurd he.symm hab.2.2)
      exact hne (hall (List.mem_map_of_mem hr) (List.mem_map_of_mem hx) hfd)
  unfold dsuOriginalfd dsuSocketsSearchShadowfd
  split
  · rename_i r hr
    exact hself r (List.mem_of_find?_eq_some hr)
  · rename_i hnone
    rintro (hw | ⟨x, hx, hg, -⟩)
    · exact ht hw.taken
    · exact absurd (List.find?_eq_none.mp hnone x hx) (by simp [hg])

variable {out : FdSets}

theorem readable_iff (h : Apart binds) {A S : FdSet}
    (hA : ∀ g ∈ A, (∃ f ∈ S, dsuShadowfd binds f = g) ∨ Watched binds g) :
    (A.filter (¬Taken binds ·)).image (dsuOriginalfd binds) = S.filter (fun f => f < nfds ∧ dsuShadowfd binds f ∈ A) ↔
      ∀ g ∈ A, ∀ f, (f ∈ S ∧ f < nfds ∧ dsuShadowfd binds f = g) ↔ (¬Taken binds g ∧ dsuOriginalfd binds g = f) := by
  have hback : ∀ g ∈ A, ¬Taken binds g → dsuShadowfd binds (dsuOriginalfd binds g) = g :=
    fun g hg => dsuShadowfd_originalfd h (hA g hg)
  have hiff : (A.filter (¬Taken binds ·)).image (dsuOriginalfd binds) =
      S.filter (fun f => f < nfds ∧ dsuShadowfd binds f ∈ A) ↔
      ∀ f, (∃ g ∈ A, ¬Taken binds g ∧ dsuOriginalfd binds g = f) ↔ f ∈ S ∧ f < nfds ∧ dsuShadowfd binds f ∈ A := by
    simp only [Finset.ext_iff, Finset.mem_image, Finset.mem_filter, and_assoc]
  rw [hiff]
  constructor
  · intro hsets g hg f
    constructor
    · rintro ⟨hf, hlt, rfl⟩
      obtain ⟨g', hg', ht, rfl⟩ := (hsets f).mpr ⟨hf, hlt, hg⟩
      rw [hback g' hg' ht]
      exact ⟨ht, rfl⟩
    · rintro ⟨ht, rfl⟩
      obtain ⟨hf, hlt, -⟩ := (hsets _).mp ⟨g, hg, ht, rfl⟩
      exact ⟨hf, hlt, hback g hg ht⟩
  · intro hclean f
    constructor
    · rintro ⟨g, hg, hback⟩
      obtain ⟨hf, hlt, hname⟩ := (hclean g hg f).mpr hback
      exact ⟨hf, hlt, hname ▸ hg⟩
    · rintro ⟨hf, hlt, hg⟩
      exact ⟨_, hg, (hclean _ hg f).mp ⟨hf, hlt, rfl⟩⟩

theorem Taken.congr {binds' : List DsuSocket}
    (h : binds'.map (fun r => r.comfd :: r.comfds) = binds.map fun r => r.comfd :: r.comfds) (g : Int) :
    Taken binds' g ↔ Taken binds g := by
  unfold Taken
  rw [List.flatMap_def, h, ← List.flatMap_def]

/-- The names that are given back are distinct. -/
theorem card_image_originalfd (h : Apart binds) {A S : FdSet}
    (hA : ∀ g ∈ A, (∃ f ∈ S, dsuShadowfd binds f = g) ∨ Watched binds g) :
    ((A.filter (¬Taken binds ·)).image (dsuOriginalfd binds)).card = (A.filter (¬Taken binds ·)).card := by
  refine Finset.card_image_of_injOn fun g hg g' hg' he => ?_
  obtain ⟨hg, ht⟩ := Finset.mem_filter.mp hg
  obtain ⟨hg', ht'⟩ := Finset.mem_filter.mp hg'
  rw [← dsuShadowfd_originalfd h (hA g hg) ht, he, dsuShadowfd_originalfd h (hA g' hg') ht']

/-- A round that comes to an end is transparent if and only if it is clean. -/
theorem transparent_iff (h : Apart start.binds) (wait : SelectWait) (hwait : selectAsk K start nfds sets timeout = wait)
    (hfound : (wait.proc.world.select K wait.maxFds wait.asked wait.timeout).1 = some found) :
    let served := selectServe K { wait.proc with world := wait.proc.world.tick } found
    Transparent start.binds nfds sets found served.2.1 served.1 ↔ Clean start nfds sets found := by
  subst hwait
  have hasks := selectAsk_asks K start nfds sets timeout
  obtain ⟨hreads, hsome, ⟨P, _, hwrites⟩, ⟨Q, _, hexcepts⟩⟩ := World.select_found hfound
  have hA : ∀ g ∈ found.read.getD ∅, (∃ f ∈ sets.read.getD ∅, dsuShadowfd start.binds f = g) ∨ Watched start.binds g :=
    fun g hg => selectAsk_reads h (hreads g hg).1
  obtain ⟨hwrite, hexcept, hisSome, hread, hn⟩ := selectServe_sets (K := K)
    (p := { (selectAsk K start nfds sets timeout).proc with world := (selectAsk K start nfds sets timeout).proc.world.tick })
    found (h.asks hasks) fun g hg => (hreads g hg).2
  simp only at hwrite hexcept hisSome hread hn ⊢
  have hleft : (found.read.getD ∅).filter (¬Taken (selectAsk K start nfds sets timeout).proc.binds ·) =
      (found.read.getD ∅).filter (¬Taken start.binds ·) :=
    Finset.filter_congr fun g _ => not_congr (Taken.congr (asks_map (fun _ => rfl) hasks) g)
  rw [hleft, funext (dsuOriginalfd_congr (asks_map (g := DsuSocket.names) (fun _ => rfl) hasks))] at hread
  rw [hleft] at hn
  have hcard := card_image_originalfd h hA
  rw [← hread] at hcard
  have hreadSome := hisSome.trans (hsome.trans selectAsk_isSome)
  have hmap := eq_map_iff hreadSome
    (F := fun S => S.filter fun f => f < nfds ∧ dsuShadowfd start.binds f ∈ found.read.getD ∅) (Finset.filter_empty _)
  constructor
  · intro ht
    have hwriteBelow := ht.write
    have hexceptBelow := ht.except
    rw [hwrite] at hwriteBelow
    rw [hexcept] at hexceptBelow
    refine ⟨?_, ?_, fun f hf => ⟨(map_filter_below_iff hwrites).mp hwriteBelow f hf, ?_⟩,
      fun f hf => ⟨(map_filter_below_iff hexcepts).mp hexceptBelow f hf, ?_⟩⟩
    · have hsize := ht.size
      rw [hn] at hsize
      unfold FdSets.size at hsize
      rw [hwrite, hexcept, hcard] at hsize
      change _ - start.correction = _ at hsize
      omega
    · exact (readable_iff h hA).mp (hread.symm.trans (hmap.mp ht.read))
    · exact ht.hidden f (Or.inr (Or.inl (hwrite ▸ hf)))
    · exact ht.hidden f (Or.inr (Or.inr (hexcept ▸ hf)))
  · intro hc
    refine ⟨hmap.mpr (hread.trans ((readable_iff h hA).mpr hc.read)), ?_, ?_, ?_, ?_⟩
    · rw [hwrite]
      exact (map_filter_below_iff hwrites).mpr fun f hf => (hc.write f hf).1
    · rw [hexcept]
      exact (map_filter_below_iff hexcepts).mpr fun f hf => (hc.except f hf).1
    · intro f hf
      rw [hread, hwrite, hexcept] at hf
      rcases hf with hf | hf | hf
      · obtain ⟨g, hg, rfl⟩ := Finset.mem_image.mp hf
        exact not_internal_originalfd h (Finset.mem_filter.mp hg).2
      · exact (hc.write f hf).2
      · exact (hc.except f hf).2
    · rw [hn]
      unfold FdSets.size
      rw [hwrite, hexcept, hcard]
      change _ - start.correction = _
      rw [hc.correction]
      push_cast
      omega

end Transparent

/-- The state in which the last round of a `select` translates its sets, and the sets that the kernel reports. -/
def Proc.selected (K : Kernel) (p : Proc) (nfds : Int) (sets : FdSets) (timeout : Option Nat) (rounds : Nat) :
    Option (Proc × FdSets) :=
  let start := dsuInitializeEvent K (selectLast K nfds sets timeout rounds p)
  let wait := selectAsk K start nfds sets timeout
  if start.exited then none
  else (wait.proc.world.select K wait.maxFds wait.asked wait.timeout).1.map fun found => (start, found)

/-- The passes before the last round leave the numbers of the records apart. -/
theorem apart_of_last (h : Distinct p.sockets p.binds p.world) (rounds : Nat) :
    Apart (dsuInitializeEvent K (selectLast K nfds sets timeout rounds p)).binds := by
  have hlast : p.Evolves (selectLast K nfds sets timeout rounds p) := selectLast_evolves rounds p
  exact ((hlast.trans (dsuInitializeEvent_evolves K _)).changes.distinct h).apart

theorem apart_of_selected {rounds : Nat} {start : Proc} (h : Distinct p.sockets p.binds p.world)
    (hs : p.selected K nfds sets timeout rounds = some (start, found)) : Apart start.binds := by
  unfold Proc.selected at hs
  simp only at hs
  split at hs
  · cases hs
  · obtain ⟨found', -, he⟩ := Option.map_eq_some_iff.mp hs
    cases he
    exact apart_of_last h rounds

/-- A `select` that returns a size returns what its last round has made of the sets that the kernel reports. -/
theorem selected_of_select {rounds : Nat} {n : Int} {out : FdSets}
    (hs : select K nfds sets timeout rounds p = some (q, .returned n out)) (hn : 0 ≤ n) :
    ∃ start found, p.selected K nfds sets timeout rounds = some (start, found) ∧
      let wait := selectAsk K start nfds sets timeout
      (wait.proc.world.select K wait.maxFds wait.asked wait.timeout).1 = some found ∧
      n = (selectServe K { wait.proc with world := wait.proc.world.tick } found).2.1 ∧
      out = (selectServe K { wait.proc with world := wait.proc.world.tick } found).1 := by
  obtain ⟨hdone, -⟩ := select_eq_last hs
  unfold selectRound selectRest at hdone
  unfold Proc.selected
  simp only at hdone ⊢
  generalize dsuInitializeEvent K (selectLast K nfds sets timeout rounds p) = start at hdone ⊢
  split at hdone
  · cases hdone
  · rename_i hexit
    obtain ⟨-, hround⟩ := Prod.ext_iff.mp hdone
    rw [if_neg hexit]
    split at hround
    · cases hround
      exact absurd hn (by decide)
    · rename_i found hfound
      simp only at hround
      split at hround
      · cases hround
      · cases hround
        exact ⟨start, found, by rw [hfound]; rfl, hfound, rfl, rfl⟩

/-- A `select` that returns a size is transparent if and only if its last round is clean, as long as the numbers of
    the records are apart. They are in every run in which the program spares the numbers of the library. -/
theorem select_transparent_iff {rounds : Nat} {n : Int} {out : FdSets}
    (hs : select K nfds sets timeout rounds p = some (q, .returned n out)) (hn : 0 ≤ n) :
    ∃ start found, p.selected K nfds sets timeout rounds = some (start, found) ∧
      (Apart start.binds → (Transparent start.binds nfds sets found n out ↔ Clean start nfds sets found)) ∧
      ∀ loaded calls, loaded.Started → (procMachine K).run loaded calls = some p →
        (procMachine K).Steps (fun p call => call.Spares p) loaded calls → Apart start.binds := by
  obtain ⟨start, found, hsel, hfound, rfl, rfl⟩ := selected_of_select hs hn
  refine ⟨start, found, hsel, fun hapart => transparent_iff hapart _ rfl hfound, fun loaded calls h hrun hc => ?_⟩
  exact apart_of_selected (distinct_of_steps h hc hrun) hsel

/-- Descriptor 3 is readable in every wait. -/
def readyKernel : Kernel :=
  { soloKernel with
    select := fun _ _ => some { read := fun fd => fd = 3, write := fun _ => false, except := fun _ => false } }

/-- A program waits for its bound socket 3, which becomes readable. -/
theorem select_transparent_for_socket : ∃ p q out,
    (procMachine readyKernel).run .loaded [.socket, .bind 3 8080] = some p ∧
    select readyKernel 4 ⟨some {3}, none, none⟩ (some 0) 1 p = some (q, .returned 1 out) ∧
    ∃ start found, p.selected readyKernel 4 ⟨some {3}, none, none⟩ (some 0) 1 = some (start, found) ∧
      Transparent start.binds 4 ⟨some {3}, none, none⟩ found 1 out := by
  have h : ∀ p q out, (procMachine readyKernel).run .loaded [.socket, .bind 3 8080] = some p →
      select readyKernel 4 ⟨some {3}, none, none⟩ (some 0) 1 p = some (q, .returned 1 out) →
      ∃ start found, p.selected readyKernel 4 ⟨some {3}, none, none⟩ (some 0) 1 = some (start, found) ∧
        Transparent start.binds 4 ⟨some {3}, none, none⟩ found 1 out := by
    intro p q out hp hs
    obtain ⟨start, found, hsel, hiff, hapart⟩ := select_transparent_iff hs (by decide)
    refine ⟨start, found, hsel, (hiff (hapart .loaded _ Proc.started_loaded hp fun _ hs => ?_)).mpr ?_⟩
    · cases hs
      refine ⟨trivial, fun _ hs => ?_⟩
      cases hs
      exact ⟨trivial, trivial⟩
    · cases hp
      cases hsel
      refine ⟨rfl, fun g hg f => ?_, fun f hf => ?_, fun f hf => ?_⟩
      · have hg : g ∈ ({3} : FdSet) := hg
        rw [Finset.mem_singleton.mp hg]
        constructor
        · rintro ⟨hf, -⟩
          rw [Finset.mem_singleton.mp hf]
          decide
        · rintro ⟨-, rfl⟩
          decide
      · cases hf
      · cases hf
  exact ⟨_, _, _, rfl, rfl, h _ _ _ rfl rfl⟩

/-- The lowest free number is handed out, descriptor 4 is readable in every wait, and a new version has taken the
    port over as soon as descriptor 5 is open. -/
def reuseKernel : Kernel :=
  { soloKernel with
    number := fun w => ((List.range 8).map Int.ofNat).find? fun n => !w.isOpen n
    status := fun w port => if w.isOpen 5 then { pgid := 2, version := 1, transfer := 0 } else w.status port
    select := fun _ _ => some { read := fun fd => fd = 4, write := fun _ => false, except := fun _ => false } }

/-- Bound socket 3 has `comfd` 4, which is closed when a new version takes over; the next client gets number 4. Its
    data are ready, and `select` takes the descriptor for the `comfd` and returns 0. -/
theorem ready_client_dropped : ∃ p q out start found,
    (procMachine reuseKernel).run .loaded
      [.socket, .bind 3 8080, .accept 3, .select 0 ⟨none, none, none⟩ (some 0) 1, .accept 3] = some p ∧
    p.binds.map (fun r => (r.fds, r.comfd, r.monitoring)) = [([5, 4], 4, false)] ∧
    select reuseKernel 5 ⟨some {4}, none, none⟩ (some 0) 1 p = some (q, .returned 0 out) ∧
    p.selected reuseKernel 5 ⟨some {4}, none, none⟩ (some 0) 1 = some (start, found) ∧
    found.read = some {4} ∧ out.read = some ∅ ∧ ¬Transparent start.binds 5 ⟨some {4}, none, none⟩ found 0 out := by
  refine ⟨_, _, _, _, _, rfl, rfl, rfl, rfl, by decide, by decide, fun h => ?_⟩
  exact absurd (congrArg (fun s : Option FdSet => decide (4 ∈ s.getD ∅)) h.read) (by decide)

end OpenDSU
