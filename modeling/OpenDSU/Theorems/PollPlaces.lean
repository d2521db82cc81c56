import OpenDSU.Theorems.PollReports

/-! Where the search of `dsu_set_revents` stops, when only entries of the program are ready.

The descriptors of the caller's array never change, so the places where the search stops are the ones of the array as
the caller gave it. -/

namespace OpenDSU

variable {K : Kernel} {p : Proc} {binds binds' : List DsuSocket} {w : World} {fds l buf : List PollFd}
  {fds' : Nat → PollFd} {nfds' : Nat} {timeout : Option Nat}

/-- The ready entries of `_fds` from index `i` on, `n` entries in all, each with the index where `dsu_set_revents` stops
    for it. -/
def setReventsStops (binds : List DsuSocket) (fds' : Nat → PollFd) : Nat → Nat → Nat → List PollFd → List (Nat × Nat)
  | 0, _, _, _ => []
  | n + 1, i, o, fds =>
    if (fds' i).revents = 0 then setReventsStops binds fds' n (i + 1) o fds
    else
      match seekFd (dsuOriginalfd binds (fds' i).fd) (fds.drop (i + o)) (i + o) with
      | none => []
      | some k => (i, k) :: setReventsStops binds fds' n (i + 1) (k - i) (fds.modify k ({ · with revents := 1 }))

/-- Where the search stops for every ready entry, the loop marks the places of the stops, and nothing else. -/
theorem dsuSetReventsFrom_stops {n i o : Nat} {out : List PollFd} (h : dsuSetReventsFrom binds fds' n i o buf = some out) :
    (setReventsStops binds fds' n i o buf).map Prod.fst = (List.range' i n).filter (fun j => (fds' j).revents ≠ 0) ∧
      out = (setReventsStops binds fds' n i o buf).foldl (fun b x => b.modify x.2 ({ · with revents := 1 })) buf := by
  induction n generalizing i o buf with
  | zero => exact ⟨rfl, (Option.some.inj h).symm⟩
  | succ n ih =>
    unfold dsuSetReventsFrom at h
    unfold setReventsStops
    rw [List.range'_succ]
    by_cases hready : (fds' i).revents = 0
    · rw [if_pos hready] at h ⊢
      rw [List.filter_cons_of_neg (by simpa using hready)]
      exact ih h
    · rw [if_neg hready] at h ⊢
      rw [List.filter_cons_of_pos (by simpa using hready)]
      cases hseek : seekFd (dsuOriginalfd binds (fds' i).fd) (buf.drop (i + o)) (i + o) with
      | none =>
        rw [hseek] at h
        cases h
      | some k =>
        rw [hseek] at h
        obtain ⟨hplaces, hout⟩ := ih h
        exact ⟨congrArg (i :: ·) hplaces, hout⟩

/-! ### Entries without an answer -/

theorem dsuSetReventsFrom_unready {n i o : Nat} (h : ∀ j, i ≤ j → j < i + n → (fds' j).revents = 0) :
    dsuSetReventsFrom binds fds' n i o buf = some buf ∧ setReventsStops binds fds' n i o buf = [] := by
  induction n generalizing i with
  | zero => exact ⟨rfl, rfl⟩
  | succ n ih =>
    have hi := h i (Nat.le_refl i) (by omega)
    obtain ⟨hloop, hstops⟩ := ih (i := i + 1) fun j hj hj' => h j (by omega) (by omega)
    refine ⟨?_, ?_⟩
    · rw [dsuSetReventsFrom, if_pos hi]
      exact hloop
    · rw [setReventsStops, if_pos hi]
      exact hstops

/-! ### Entries of the caller -/

/-- The stops that are left at entry `k` of the caller. -/
def stopsAt (binds : List DsuSocket) (l : List PollFd) (fds' : Nat → PollFd) (nfds' k : Nat) (buf : List PollFd) :
    List (Nat × Nat) :=
  setReventsStops binds fds' (nfds' - pollIndex l k) (pollIndex l k) (searchStart l fds' k - pollIndex l k) buf

section Step
variable (hkept : pollIndex l l.length ≤ nfds')
include hkept

theorem stopsAt_unready {k : Nat} (hk : k < l.length) (h : pollAnswer l fds' k = 0) (b : List PollFd) :
    stopsAt binds l fds' nfds' k b = stopsAt binds l fds' nfds' (k + 1) b := by
  have he := List.getElem?_eq_getElem hk
  have hle := pollIndex_le_searchStart fds' (Nat.le_of_lt hk)
  have hbound := pollIndex_le_kept l (k + 1)
  unfold stopsAt
  rw [searchStart_unready he h]
  rw [pollIndex_succ l k _ he] at hbound ⊢
  by_cases hfd : l[k].fd = -1
  · simp only [hfd, if_true, Nat.add_zero]
  · have hunready : (fds' (pollIndex l k)).revents = 0 := by simpa [pollAnswer, he, hfd] using h
    rw [if_neg hfd] at hbound
    simp only [hfd, if_false]
    rw [show nfds' - pollIndex l k = nfds' - (pollIndex l k + 1) + 1 by omega,
      show searchStart l fds' k + 1 - (pollIndex l k + 1) = searchStart l fds' k - pollIndex l k by omega]
    exact if_pos hunready

variable (hfds' : ∀ k e, l[k]? = some e → e.fd ≠ -1 → (fds' (pollIndex l k)).fd = e.fd)
include hfds'

theorem stopsAt_found {k : Nat} {e : PollFd} (he : l[k]? = some e) (h : pollAnswer l fds' k ≠ 0) {b : List PollFd}
    (hseek : seekFd (dsuOriginalfd binds e.fd) (b.drop (searchStart l fds' k)) (searchStart l fds' k) = some k) :
    stopsAt binds l fds' nfds' k b =
      (pollIndex l k, k) :: stopsAt binds l fds' nfds' (k + 1) (b.modify k ({ · with revents := 1 })) := by
  obtain ⟨e', he', hfd, hready⟩ := pollAnswer_lt h
  cases Option.some.inj (he.symm.trans he')
  have hk : k < l.length := (List.getElem?_eq_some_iff.mp he).1
  have hle := pollIndex_le_searchStart fds' (Nat.le_of_lt hk)
  have hbound := pollIndex_le_kept l (k + 1)
  unfold stopsAt
  rw [searchStart_ready h]
  rw [pollIndex_succ l k e he, if_neg hfd] at hbound ⊢
  rw [show nfds' - pollIndex l k = nfds' - (pollIndex l k + 1) + 1 by omega, setReventsStops, if_neg (hready ▸ h),
    hfds' k e he hfd, Nat.add_sub_cancel' hle, hseek, Nat.add_sub_add_right]

/-- The search has stopped at each ready entry of the caller up to entry `k`. -/
theorem stopsAt_marked
    (hnamed : ∀ k e, l[k]? = some e → pollAnswer l fds' k ≠ 0 → (buf.map PollFd.fd)[k]? = some (dsuOriginalfd binds e.fd))
    (hfirst : ∀ k, pollAnswer l fds' k ≠ 0 → ∀ j, searchStart l fds' k ≤ j → j < k →
      (buf.map PollFd.fd)[j]? ≠ (buf.map PollFd.fd)[k]?) {k : Nat} (hk : k ≤ l.length) :
    stopsAt binds l fds' nfds' 0 buf =
      ((List.range k).filter (pollAnswer l fds' · ≠ 0)).map (fun k => (pollIndex l k, k)) ++
        stopsAt binds l fds' nfds' k (markedBefore l fds' buf k) := by
  induction k with
  | zero => rfl
  | succ k ih =>
    rw [ih (by omega), List.range_succ, List.filter_append, List.map_append, List.append_assoc]
    congr 1
    by_cases h : pollAnswer l fds' k = 0
    · rw [markedBefore_unready h, stopsAt_unready hkept (by omega) h]
      simp [h]
    · have he := List.getElem?_eq_getElem (l := l) (i := k) (by omega)
      rw [markedBefore_ready h,
        stopsAt_found hkept hfds' he h (seekFd_marked (by omega) (hnamed k _ he h) (hfirst k h))]
      simp [h]

end Step

/-! ### The call -/

/-- An entry that is kept had a descriptor: `dsu_pre_poll` gives none to an entry without one. -/
theorem prePollEntry_dropped (hpos : ∀ r ∈ binds, 0 < r.fd) {k : Nat} {e e' : PollFd} (he : fds[k]? = some e)
    (he' : (walk (dsuPrePollEntry K) fds (binds, w)).1[k]? = some e') (hfd : e'.fd ≠ -1) : e.fd ≠ -1 := by
  have hall := walk_prePollEntry_fd (K := K) fds (binds, w) (rfl : _ = binds.map DsuSocket.names)
  obtain ⟨hk, rfl⟩ := List.getElem?_eq_some_iff.mp he
  obtain ⟨hk', rfl⟩ := List.getElem?_eq_some_iff.mp he'
  have hname := (hall.get hk hk').resolve_left hfd
  intro hnone
  have hsearch : dsuSocketsSearchFd binds (-1) = none := by
    refine List.find?_eq_none.mpr fun r hr => ?_
    have := hpos r hr
    simp only [beq_iff_eq]
    omega
  have hself : dsuShadowfd binds (-1) = -1 := by rw [dsuShadowfd, hsearch]
  refine hfd (hname.trans ?_)
  change dsuShadowfd binds fds[k].fd = -1
  rw [hnone, hself]

theorem pairwise_getElem? {ds : List Int} (h : ds.Pairwise fun c d => c = d → c = -1) {j k : Nat} (hjk : j < k) {d : Int}
    (hk : ds[k]? = some d) (hd : d ≠ -1) : ds[j]? ≠ ds[k]? := by
  intro hsame
  obtain ⟨hlt, hdk⟩ := List.getElem?_eq_some_iff.mp hk
  obtain ⟨hlt', hdj⟩ := List.getElem?_eq_some_iff.mp (hsame.trans hk)
  have hone := List.pairwise_iff_getElem.mp h j k hlt' hlt hjk (hdj.trans hdk.symm)
  exact hd (hdj.symm.trans hone)

/-- The start of an event call leaves the records their sockets, which have positive numbers. -/
theorem initializeEvent_fd_pos (hp : (procMachine K).Reachable p) : ∀ r ∈ (dsuInitializeEvent K p).binds, 0 < r.fd := by
  intro r hr
  have hfd := congrArg (List.map Prod.fst) (dsuInitializeEvent_evolves K p).names
  rw [List.map_map, List.map_map] at hfd
  have hmem : r.fd ∈ (dsuInitializeEvent K p).binds.map (Prod.fst ∘ DsuSocket.names) := List.mem_map_of_mem hr
  rw [hfd] at hmem
  refine fd_pos_of_reachable hp r.fd ?_
  rw [Proc.socketFds, List.map_append]
  exact List.mem_append_right _ hmem

/-! ### The entry of a ready descriptor -/

section Own
variable (hlen : l.length = fds.length)
  (hundo : ∀ x ∈ fds.zip l, x.2.fd ≠ -1 → dsuOriginalfd binds x.2.fd = x.1.fd)
  (hdropped : ∀ (k : Nat) (e e' : PollFd), fds[k]? = some e → l[k]? = some e' → e'.fd ≠ -1 → e.fd ≠ -1)
include hlen hundo hdropped

theorem entry_of_answer {k : Nat} {e : PollFd} (he : l[k]? = some e) (hanswer : pollAnswer l fds' k ≠ 0) :
    ∃ e₀, fds[k]? = some e₀ ∧ e₀.fd ≠ -1 ∧ dsuOriginalfd binds e.fd = e₀.fd := by
  obtain ⟨e', he', hfd, -⟩ := pollAnswer_lt hanswer
  cases Option.some.inj (he.symm.trans he')
  have hk : k < l.length := (List.getElem?_eq_some_iff.mp he).1
  have he₀ := List.getElem?_eq_getElem (l := fds) (i := k) (by omega)
  refine ⟨fds[k], he₀, hdropped k _ e he₀ he hfd, hundo (fds[k], e) ?_ hfd⟩
  exact List.mem_iff_getElem?.mpr ⟨k, List.getElem?_zip_eq_some.mpr ⟨he₀, he⟩⟩

theorem named_of_answer {k : Nat} {e : PollFd} (he : l[k]? = some e) (hanswer : pollAnswer l fds' k ≠ 0) :
    (fds.map PollFd.fd)[k]? = some (dsuOriginalfd binds e.fd) := by
  obtain ⟨e₀, he₀, -, hname⟩ := entry_of_answer hlen hundo hdropped he hanswer
  rw [List.getElem?_map, he₀, hname]
  rfl

/-- Before its own index its descriptor is nowhere. -/
theorem first_of_answer (hdistinct : (fds.map PollFd.fd).Pairwise fun c d => c = d → c = -1) {k : Nat}
    (hanswer : pollAnswer l fds' k ≠ 0) {j : Nat} (hjk : j < k) :
    (fds.map PollFd.fd)[j]? ≠ (fds.map PollFd.fd)[k]? := by
  obtain ⟨e, he, -, -⟩ := pollAnswer_lt hanswer
  obtain ⟨e₀, he₀, hfd, -⟩ := entry_of_answer hlen hundo hdropped he hanswer
  exact pairwise_getElem? hdistinct hjk (by rw [List.getElem?_map, he₀]; rfl) hfd

end Own

theorem stopsAt_zero : stopsAt binds l fds' nfds' 0 fds = setReventsStops binds fds' nfds' 0 0 fds := by
  simp [stopsAt, pollIndex, searchStart]

theorem loopAt_zero : loopAt binds l fds' nfds' 0 fds = dsuSetRevents binds fds fds' nfds' := by
  simp [loopAt, pollIndex, searchStart, dsuSetRevents]

/-- What is written at an index of the caller's array, once all its ready entries are marked. -/
theorem markedBefore_all (k : Nat) :
    (markedBefore l fds' fds l.length)[k]? =
      if pollAnswer l fds' k ≠ 0 then fds[k]?.map ({ · with revents := 1 }) else fds[k]? := by
  rw [markedBefore_getElem?]
  by_cases hanswer : pollAnswer l fds' k = 0
  · simp [hanswer]
  · obtain ⟨e, he, -, -⟩ := pollAnswer_lt hanswer
    simp [hanswer, (List.getElem?_eq_some_iff.mp he).1]

/-- When only entries of the program are ready, and `dsu_originalfd` undoes the translation of the entries that are kept,
    the search of `dsu_set_revents` stops for each ready entry at the index that it had in the caller's array, and
    nothing else is written. -/
theorem revents_at_own_index (hp : (procMachine K).Reachable p) {a : (Nat → PollFd) × Nat}
    (ha : a ∈ p.polled K fds timeout) (hdistinct : (fds.map PollFd.fd).Pairwise fun c d => c = d → c = -1)
    (hundo : ∀ x ∈ fds.zip (p.translated K fds), x.2.fd ≠ -1 → dsuOriginalfd p.binds x.2.fd = x.1.fd)
    (hready : ∀ i, p.kept K fds ≤ i → i < a.2 → (a.1 i).revents = 0) :
    let answer := pollAnswer (p.translated K fds) a.1
    setReventsStops p.binds a.1 a.2 0 0 fds =
        ((List.range fds.length).filter (answer · ≠ 0)).map (fun k => (pollIndex (p.translated K fds) k, k)) ∧
      ∃ out, dsuSetRevents p.binds fds a.1 a.2 = some out ∧
        ∀ k, out[k]? = if answer k ≠ 0 then fds[k]?.map ({ · with revents := 1 }) else fds[k]? := by
  have hfds' := polled_fd ha
  have hkept : pollIndex (p.translated K fds) (p.translated K fds).length ≤ a.2 := by
    rw [← kept_eq]
    exact (kept_le ha).2
  rw [kept_eq] at hready
  have hlen : (p.translated K fds).length = fds.length := pollTranslated_length K _ fds
  have hdropped : ∀ k (e e' : PollFd), fds[k]? = some e → (p.translated K fds)[k]? = some e' → e'.fd ≠ -1 → e.fd ≠ -1 :=
    fun k e e' he he' => prePollEntry_dropped (initializeEvent_fd_pos hp) he he'
  generalize p.translated K fds = l at hundo hready hfds' hkept hlen hdropped
  -- Each ready entry has its descriptor at its own index, and not before.
  have hnamed : ∀ k (e : PollFd), l[k]? = some e → pollAnswer l a.1 k ≠ 0 →
      (fds.map PollFd.fd)[k]? = some (dsuOriginalfd p.binds e.fd) :=
    fun k e he hanswer => named_of_answer hlen hundo hdropped he hanswer
  have hfirst : ∀ k, pollAnswer l a.1 k ≠ 0 → ∀ j, searchStart l a.1 k ≤ j → j < k →
      (fds.map PollFd.fd)[j]? ≠ (fds.map PollFd.fd)[k]? :=
    fun k hanswer j _ hjk => first_of_answer hlen hundo hdropped hdistinct hanswer hjk
  -- Behind the entries of the caller nothing is ready.
  obtain ⟨hloop, hstops⟩ : loopAt p.binds l a.1 a.2 l.length (markedBefore l a.1 fds l.length) =
        some (markedBefore l a.1 fds l.length) ∧
      stopsAt p.binds l a.1 a.2 l.length (markedBefore l a.1 fds l.length) = [] :=
    dsuSetReventsFrom_unready fun j hj hj' => hready j hj (by omega)
  refine ⟨?_, markedBefore l a.1 fds l.length, ?_, markedBefore_all⟩
  · rw [← stopsAt_zero (l := l), stopsAt_marked hkept hfds' hnamed hfirst (Nat.le_refl _), hstops, List.append_nil, hlen]
  · rw [← loopAt_zero (l := l), loopAt_marked hkept hfds' hnamed hfirst (Nat.le_refl _)]
    exact hloop

/-- An entry without a descriptor, a bound socket, and a connection with data. -/
def gapped : List PollFd := [⟨-1, pollin, 0⟩, ⟨3, pollin, 0⟩, ⟨5, pollin, 0⟩]

/-- The connection is found behind the two entries before it, of which one was dropped. -/
theorem revents_behind_gap : ∃ p a,
    (procMachine connectKernel).run .loaded [.socket, .bind 3 8080, .socket] = some p ∧
    p.polled connectKernel gapped none = some a ∧ setReventsStops p.binds a.1 a.2 0 0 gapped = [(1, 2)] := by
  refine ⟨_, _, rfl, rfl, ?_⟩
  have hp := Machine.Reachable.of_run (M := procMachine connectKernel) [.socket, .bind 3 8080, .socket]
    (.init Proc.started_loaded) rfl
  refine (revents_at_own_index hp (show _ ∈ Proc.polled connectKernel _ gapped none from rfl) (by decide) (by decide)
    fun i hi hi' => ?_).1
  obtain rfl : i = 2 := Nat.le_antisymm (Nat.le_of_lt_succ hi') hi
  rfl

end OpenDSU
