import OpenDSU.Theorems.Numbers
import OpenDSU.Theorems.Visits

/-! The three handlers do the same: each of them visits the ready descriptors of a record once, in an order of its
own, though it takes closed connections off the list while it walks along it. -/

namespace OpenDSU

variable {K : Kernel} {r r' : DsuSocket} {w w' v : World} {ready visited : Finset Int} {c d : Int}

/-! ### Walking along `comfds` -/

/-- A connection that is ready and not visited yet stands once in `comfds`. -/
theorem ReadySet.count_leftComfds (hr : ReadySet K r w ready) (hc : c ∈ r.comfds) (hcr : c ∈ ready)
    (hcv : c ∉ visited) : (leftComfds K r w visited).count c = 1 := by
  have hfilter :
      (r.comfds.filter fun c => !(decide (c ∈ visited) && decide ((w.recv K c).1 = .closed))).count c = 1 :=
    List.count_eq_one_of_mem ((List.nodup_cons.mp hr.nodup).2.filter _) (by simp [hc, hcv])
  unfold leftComfds
  rw [List.count_append, hfilter]
  split
  · rename_i hacc
    have hne : accepted K r w ≠ c := fun he => hr.fresh _ (accepted_new hacc.2).1 (he ▸ hcr)
    simp [hne]
  · rfl

/-- What is no descriptor of the record and has not been accepted stands not in `comfds`. -/
theorem not_mem_leftComfds (hc : c ∉ r.comfds) (hacc : accepted K r w ≠ -1 → c ≠ accepted K r w) :
    c ∉ leftComfds K r w visited := by
  unfold leftComfds
  intro hmem
  rcases List.mem_append.mp hmem with h | h
  · exact hc (List.mem_filter.mp h).1
  · split at h
    · rename_i hif
      exact hacc hif.2 (List.mem_singleton.mp h)
    · cases h

theorem dsuHandleComfdsPoll_of_not_mem {cs : List Int} (r : DsuSocket) (w : World) (hd : d ∉ cs) :
    dsuHandleComfdsPoll K d cs r w = (r, w) := by
  induction cs with
  | nil => rfl
  | cons c cs ih =>
    rw [dsuHandleComfdsPoll_cons, if_neg fun he : d = c => hd (he ▸ List.mem_cons_self)]
    exact ih fun h => hd (List.mem_cons_of_mem _ h)

theorem dsuHandleComfdsPoll_of_count {cs : List Int} (r : DsuSocket) (w : World) (hd : cs.count d = 1) :
    dsuHandleComfdsPoll K d cs r w = (answerConn K d r w).2 := by
  induction cs with
  | nil => simp at hd
  | cons c cs ih =>
    rw [dsuHandleComfdsPoll_cons]
    split
    · rename_i he
      subst he
      rw [List.count_cons_self] at hd
      rw [dsuHandleComfdsPoll_of_not_mem _ _ (List.count_eq_zero.mp (by omega))]
    · rename_i hne
      rw [List.count_cons_of_ne (Ne.symm hne)] at hd
      exact ih hd

theorem dsuHandleComfdsEpoll_of_not_mem {cs : List Int} (epollfd : Int) (e : Event) (r : DsuSocket) (w : World)
    (hd : e.ev.data.fd ∉ cs) : dsuHandleComfdsEpoll K epollfd cs e r w = (e, r, w) := by
  induction cs with
  | nil => rfl
  | cons c cs ih =>
    rw [dsuHandleComfdsEpoll_cons, if_neg fun he : e.ev.data.fd = c => hd (he ▸ List.mem_cons_self)]
    exact ih fun h => hd (List.mem_cons_of_mem _ h)

/-- One answer, after which the event is marked with a number that no connection has. -/
theorem dsuHandleComfdsEpoll_of_count {cs : List Int} (epollfd : Int) (e : Event) (r : DsuSocket) (w : World)
    (hvalid : -1 ∉ cs) (hd : cs.count e.ev.data.fd = 1) :
    let a := (answerConn K e.ev.data.fd r w).2
    (dsuHandleComfdsEpoll K epollfd cs e r w).2 = a ∨
      (dsuHandleComfdsEpoll K epollfd cs e r w).2 =
        (a.1, (a.2.epollCtl K epollfd .del e.ev.data.fd noEvent true).2) := by
  induction cs with
  | nil => simp at hd
  | cons c cs ih =>
    have hvalid' : -1 ∉ cs := fun h => hvalid (List.mem_cons_of_mem _ h)
    rw [dsuHandleComfdsEpoll_cons]
    split
    · rename_i he
      have hnot : e.ev.data.fd ∉ cs := by
        rw [← he, List.count_cons_self] at hd
        exact List.count_eq_zero.mp (by omega)
      simp only
      split
      · rw [dsuHandleComfdsEpoll_of_not_mem _ _ _ _ hvalid', ← he]
        exact Or.inr rfl
      · rw [dsuHandleComfdsEpoll_of_not_mem _ _ _ _ hnot, ← he]
        exact Or.inl rfl
    · rename_i hne
      rw [List.count_cons_of_ne (Ne.symm hne)] at hd
      exact ih hvalid' hd

/-! ### The three loops -/

theorem fdIsset_fdClr (hd : d ≠ c) (set : Option FdSet) : fdIsset d (fdClr c set) = fdIsset d set := by
  cases set with
  | none => rfl
  | some S => simp [fdIsset, fdClr, hd]

/-- `select` visits the connections in the order of the list. -/
theorem Visited.comfds (hK : K.Steady) (hr : ReadySet K r w ready) {cs : List Int} {s : SelectPass}
    (hsub : visited ⊆ ready) (hv : Visited K r w visited r' s.world)
    (hbits : ∀ c ∈ cs, fdIsset c s.readfds = decide (c ∈ ready))
    (hnew : ∀ c ∈ cs, c ∈ ready → c ∈ r.comfds ∧ c ∉ visited) (hnodup : (cs.filter (· ∈ ready)).Nodup) :
    Visited K r w (visited ∪ ready.filter (· ∈ cs)) (dsuHandleComfds K cs r' s).1
      (dsuHandleComfds K cs r' s).2.world := by
  induction cs generalizing visited r' s with
  | nil =>
    have hset : visited ∪ ready.filter (· ∈ ([] : List Int)) = visited := by simp
    rw [hset]
    exact hv
  | cons c cs ih =>
    have hcs : ∀ x ∈ cs, x ∈ ready → x ∈ r.comfds ∧ x ∉ visited := fun x hx => hnew x (List.mem_cons_of_mem _ hx)
    rw [dsuHandleComfds_cons, hbits c List.mem_cons_self]
    by_cases hc : c ∈ ready
    · obtain ⟨hmem, hcv⟩ := hnew c List.mem_cons_self hc
      rw [List.filter_cons_of_pos (by simpa using hc), List.nodup_cons] at hnodup
      have hne : ∀ x ∈ cs, x ∈ ready → x ≠ c := by
        rintro x hx hxr rfl
        exact hnodup.1 (List.mem_filter.mpr ⟨hx, by simpa using hxr⟩)
      have hset : visited ∪ ready.filter (· ∈ c :: cs) = insert c visited ∪ ready.filter (· ∈ cs) := by
        ext x
        simp only [Finset.mem_union, Finset.mem_filter, Finset.mem_insert, List.mem_cons]
        by_cases hx : x = c <;> simp [hx, hc]
      rw [if_pos (decide_eq_true hc), hset]
      refine ih (Finset.insert_subset hc hsub) (hv.answer hK hr hsub hmem hc hcv) (fun x hx => ?_)
        (fun x hx hxr => ?_) hnodup.2
      · have hxc : x ≠ c := fun he => hne x hx (he ▸ hc) he
        exact (fdIsset_fdClr hxc _).trans (hbits x (List.mem_cons_of_mem _ hx))
      · exact ⟨(hcs x hx hxr).1, by simp [hne x hx hxr, (hcs x hx hxr).2]⟩
    · have hset : ready.filter (· ∈ c :: cs) = ready.filter (· ∈ cs) := by
        refine Finset.filter_congr fun x hx => ?_
        rw [List.mem_cons]
        exact or_iff_right fun he => hc (he ▸ hx)
      rw [List.filter_cons_of_neg (by simpa using hc)] at hnodup
      rw [if_neg (by simpa using hc), hset]
      exact ih hsub hv (fun x hx => hbits x (List.mem_cons_of_mem _ hx)) hcs hnodup

/-- The read set presents the ready descriptors of the record, and not the one that is accepted meanwhile. -/
structure PresentsBits (K : Kernel) (r : DsuSocket) (w : World) (readfds : Option FdSet) (ready : Finset Int) :
    Prop where
  bits : ∀ d ∈ r.comfd :: r.comfds, fdIsset d readfds = decide (d ∈ ready)
  new : accepted K r w ≠ -1 → fdIsset (accepted K r w) readfds = false

theorem dsuHandleConn_visits (hK : K.Steady) {s : SelectPass} (hr : ReadySet K r s.world ready)
    (hp : PresentsBits K r s.world s.readfds ready) :
    Visited K r s.world ready (dsuHandleConn K r s).1 (dsuHandleConn K r s).2.world := by
  obtain ⟨hcomfd, hnodup⟩ := List.nodup_cons.mp hr.nodup
  have hmem : ∀ d ∈ ready, d ≠ r.comfd → d ∈ r.comfds := fun d hd hne =>
    (List.mem_cons.mp (hr.internal d hd)).resolve_left hne
  have hbits' : ∀ c ∈ r.comfds, fdIsset c s.readfds = decide (c ∈ ready) := fun c hc =>
    hp.bits c (List.mem_cons_of_mem _ hc)
  rw [dsuHandleConn_eq, hp.bits r.comfd List.mem_cons_self]
  by_cases hready : r.comfd ∈ ready
  · have hv := (Visited.start (K := K) r s.world).accept hK hr (Finset.empty_subset _) (Finset.notMem_empty _)
    obtain ⟨new, hleft, hnew⟩ : ∃ new : List Int, (acceptConn K r s.world).1.comfds = r.comfds ++ new ∧
        ∀ c ∈ new, fdIsset c s.readfds = false ∧ c ∉ ready := by
      rw [acceptConn_eq]
      by_cases hne : accepted K r s.world ≠ -1
      · exact ⟨[accepted K r s.world], by simp [hne], by simp [hp.new hne, hr.fresh _ (accepted_new hne).1]⟩
      · exact ⟨[], by simp [hne], by simp⟩
    have hset : insert r.comfd ∅ ∪ ready.filter (· ∈ r.comfds ++ new) = ready := by
      ext d
      simp only [Finset.mem_union, Finset.mem_insert, Finset.notMem_empty, or_false, Finset.mem_filter,
        List.mem_append]
      constructor
      · rintro (rfl | ⟨hd, -⟩)
        · exact hready
        · exact hd
      · intro hd
        by_cases hne : d = r.comfd
        · exact Or.inl hne
        · exact Or.inr ⟨hd, Or.inl (hmem d hd hne)⟩
    rw [if_pos (decide_eq_true hready), hleft, ← hset]
    refine hv.comfds hK hr (by simpa using hready) (fun c hc => ?_) (fun c hc hcr => ?_) ?_
    · rcases List.mem_append.mp hc with h | h
      · have hne : c ≠ r.comfd := fun he => hcomfd (he ▸ h)
        exact (fdIsset_fdClr hne _).trans (hbits' c h)
      · have hne : c ≠ r.comfd := fun he => (hnew c h).2 (he ▸ hready)
        exact (fdIsset_fdClr hne _).trans ((hnew c h).1.trans (decide_eq_false (hnew c h).2).symm)
    · rcases List.mem_append.mp hc with h | h
      · have hne : c ≠ r.comfd := fun he => hcomfd (he ▸ h)
        exact ⟨h, by simpa using hne⟩
      · exact absurd hcr (hnew c h).2
    · have hnone : new.filter (· ∈ ready) = [] := List.filter_eq_nil_iff.mpr fun c hc => by simpa using (hnew c hc).2
      rw [List.filter_append, hnone, List.append_nil]
      exact hnodup.filter _
  · have hset : ∅ ∪ ready.filter (· ∈ r.comfds) = ready := by
      rw [Finset.empty_union]
      exact Finset.filter_true_of_mem fun d hd => hmem d hd fun he => hready (he ▸ hd)
    rw [if_neg (by simpa using hready), ← hset]
    exact Visited.comfds hK hr (Finset.empty_subset _) (Visited.start r s.world) hbits'
      (fun c hc _ => ⟨hc, Finset.notMem_empty c⟩) (hnodup.filter _)

/-- The descriptors `ds` present the ready ones of the record, each once, and not the one that is accepted
    meanwhile. -/
structure Presents (K : Kernel) (r : DsuSocket) (w : World) (ds : List Int) (ready : Finset Int) : Prop where
  once : ∀ d ∈ r.comfd :: r.comfds, ds.count d = if d ∈ ready then 1 else 0
  new : accepted K r w ≠ -1 → accepted K r w ∉ ds

/-- An array presents next a descriptor of the record that is ready and not visited yet, or another one. -/
theorem Presents.next {pre post : List Int} (hr : ReadySet K r w ready)
    (hp : Presents K r w (pre ++ d :: post) ready) :
    (d ∈ ready ∧ d ∉ pre) ∨
      (d ∉ ready ∧ d ∉ r.comfd :: r.comfds ∧ (accepted K r w ≠ -1 → d ≠ accepted K r w)) := by
  have hcount : (pre ++ d :: post).count d = pre.count d + (post.count d + 1) := by
    rw [List.count_append, List.count_cons_self]
  by_cases hd : d ∈ ready
  · have honce := hp.once d (hr.internal d hd)
    rw [hcount, if_pos hd] at honce
    exact Or.inl ⟨hd, List.count_eq_zero.mp (by omega)⟩
  · refine Or.inr ⟨hd, fun hmem => ?_, fun hacc he => hp.new hacc (he ▸ by simp)⟩
    have honce := hp.once d hmem
    rw [hcount, if_neg hd] at honce
    omega

/-- What an array has presented so far, of the ready descriptors. -/
theorem filter_concat (pre : List Int) (d : Int) : ready.filter (· ∈ pre ++ [d]) =
    if d ∈ ready then insert d (ready.filter (· ∈ pre)) else ready.filter (· ∈ pre) := by
  ext x
  by_cases hx : x = d
  · subst hx
    by_cases hr : x ∈ ready <;> simp [hr]
  · by_cases hr : d ∈ ready <;> simp [hr, hx]

/-- The rule for the handlers that walk along an array: `q` is what they make of an entry for `d`. -/
theorem Presents.visit (hK : K.Steady) (hr : ReadySet K r w ready) {pre post : List Int}
    (hp : Presents K r w (pre ++ d :: post) ready) (hv : Visited K r w (ready.filter (· ∈ pre)) r' v)
    {q : DsuSocket × World} (haccept : d = r'.comfd → q = acceptConn K r' v)
    (hanswer : d ≠ r'.comfd → r'.comfds.count d = 1 → q = (answerConn K d r' v).2 ∨ ∃ epollfd,
      q = ((answerConn K d r' v).2.1, ((answerConn K d r' v).2.2.epollCtl K epollfd .del d noEvent true).2))
    (hskip : d ≠ r'.comfd → d ∉ r'.comfds → q = (r', v)) :
    Visited K r w (ready.filter (· ∈ pre ++ [d])) q.1 q.2 := by
  have hsub : ready.filter (· ∈ pre) ⊆ ready := Finset.filter_subset _ _
  have hcomfds : r'.comfds = leftComfds K r w (ready.filter (· ∈ pre)) := by rw [hv.record]
  rw [filter_concat]
  rw [hv.comfd_eq] at haccept hanswer hskip
  rw [hcomfds] at hanswer hskip
  rcases hp.next hr with ⟨hd, hpre⟩ | ⟨hd, hmem, hacc⟩
  · have hdv : d ∉ ready.filter (· ∈ pre) := fun h => hpre (Finset.mem_filter.mp h).2
    rw [if_pos hd]
    by_cases hcomfd : d = r.comfd
    · rw [haccept hcomfd]
      subst hcomfd
      exact hv.accept hK hr hsub hdv
    · have hconn : d ∈ r.comfds := (List.mem_cons.mp (hr.internal d hd)).resolve_left hcomfd
      have hvisit := hv.answer hK hr hsub hconn hd hdv
      rcases hanswer hcomfd (hr.count_leftComfds hconn hd hdv) with hq | ⟨epollfd, hq⟩ <;> rw [hq]
      · exact hvisit
      · exact hvisit.unlist epollfd d
  · rw [List.mem_cons, not_or] at hmem
    rw [if_neg hd, hskip hmem.1 (not_mem_leftComfds hmem.2 hacc)]
    exact hv

/-- What the entries of an array of `ppoll` present. -/
def presentedPoll (es : List PollFd) : List Int := (es.filter (·.revents ≠ 0)).map (·.fd)

theorem foldl_entriesPoll_visits (hK : K.Steady) (hr : ReadySet K r w ready) (es : List PollFd) (pre : List Int)
    (s : PollPass) (hp : Presents K r w (pre ++ presentedPoll es) ready)
    (hv : Visited K r w (ready.filter (· ∈ pre)) r' s.world) :
    Visited K r w (ready.filter (· ∈ pre ++ presentedPoll es)) (es.foldl (dsuHandleEntryPoll K) (r', s)).1
      (es.foldl (dsuHandleEntryPoll K) (r', s)).2.world := by
  induction es generalizing pre r' s with
  | nil => simpa [presentedPoll] using hv
  | cons e es ih =>
    rw [List.foldl_cons, dsuHandleEntryPoll_eq]
    by_cases hrev : e.revents = 0
    · have hskip : presentedPoll (e :: es) = presentedPoll es := by simp [presentedPoll, hrev]
      rw [hskip] at hp ⊢
      rw [if_pos hrev]
      exact ih pre s hp hv
    · have hcons : presentedPoll (e :: es) = e.fd :: presentedPoll es := by simp [presentedPoll, hrev]
      rw [hcons] at hp ⊢
      rw [if_neg hrev, List.append_cons]
      refine ih (pre ++ [e.fd]) _ (by rw [← List.append_cons]; exact hp) ?_
      refine hp.visit hK hr hv (fun he => if_pos he) (fun hne hcount => Or.inl ?_) fun hne hnot => ?_
      · rw [if_neg hne, dsuHandleComfdsPoll_of_count _ _ hcount]
      · rw [if_neg hne, dsuHandleComfdsPoll_of_not_mem _ _ hnot]

/-- What the events of an `epoll_wait` present. -/
def presentedEpoll (es : List Event) : List Int := (es.filter (·.ev.events ≠ 0)).map (·.ev.data.fd)

theorem walk_entriesEpoll_visits (hK : K.Steady) (hr : ReadySet K r w ready) (epollfd : Int) (es : List Event)
    (pre : List Int) (hp : Presents K r w (pre ++ presentedEpoll es) ready)
    (hv : Visited K r w (ready.filter (· ∈ pre)) r' v) :
    Visited K r w (ready.filter (· ∈ pre ++ presentedEpoll es)) (walk (dsuHandleEntryEpoll K epollfd) es (r', v)).2.1
      (walk (dsuHandleEntryEpoll K epollfd) es (r', v)).2.2 := by
  induction es generalizing pre r' v with
  | nil => simpa [presentedEpoll] using hv
  | cons e es ih =>
    rw [walk_cons]
    by_cases hev : e.ev.events = 0
    · have hskip : presentedEpoll (e :: es) = presentedEpoll es := by simp [presentedEpoll, hev]
      have hentry : dsuHandleEntryEpoll K epollfd e (r', v) = (e, r', v) := if_pos hev
      rw [hskip] at hp ⊢
      rw [hentry]
      exact ih pre hp hv
    · have hcons : presentedEpoll (e :: es) = e.ev.data.fd :: presentedEpoll es := by simp [presentedEpoll, hev]
      have hentry : dsuHandleEntryEpoll K epollfd e (r', v) =
          if e.ev.data.fd = r'.comfd then (e, acceptConn K r' v)
          else dsuHandleComfdsEpoll K epollfd r'.comfds e r' v := if_neg hev
      rw [hcons] at hp ⊢
      rw [List.append_cons]
      refine ih (pre ++ [e.ev.data.fd]) (by rw [← List.append_cons]; exact hp) ?_
      have hvalid : -1 ∉ r'.comfds := by
        rw [hv.record]
        exact not_mem_leftComfds hr.valid fun hne => hne.symm
      rw [hentry]
      refine hp.visit hK hr hv (fun he => ?_) (fun hne hcount => ?_) fun hne hnot => ?_
      · rw [if_pos he]
      · rw [if_neg hne]
        exact (dsuHandleComfdsEpoll_of_count epollfd e r' v hvalid hcount).imp_right fun h => ⟨epollfd, h⟩
      · rw [if_neg hne, dsuHandleComfdsEpoll_of_not_mem _ _ _ _ hnot]

theorem Presents.all {ds : List Int} (hr : ReadySet K r w ready) (hp : Presents K r w ds ready) :
    ready.filter (· ∈ ds) = ready := by
  refine Finset.filter_true_of_mem fun d hd => List.count_pos_iff.mp ?_
  rw [hp.once d (hr.internal d hd), if_pos hd]
  exact Nat.one_pos

/-- Whatever of its descriptors are ready, and whatever is received on them, the three handlers leave the same of a
    record, of its port and of its connections, in whatever order they are told of the ready ones. -/
theorem handlers_agree (hK : K.Steady) (hr : ReadySet K r w ready) {s : SelectPass} (hs : s.world = w)
    (hbits : PresentsBits K r w s.readfds ready) {t : PollPass} (ht : t.world = w) (fds : Nat → PollFd)
    (start stop : Nat) (hfds : Presents K r w (presentedPoll (slice fds start (stop - start))) ready) (epollfd : Int)
    (events : List Event) (hevents : Presents K r w (presentedEpoll events) ready) :
    Served K r w ready (dsuHandleConn K r s).1 (dsuHandleConn K r s).2.world ∧
      Served K r w ready (dsuHandleConnPoll K fds start stop r t).1 (dsuHandleConnPoll K fds start stop r t).2.world ∧
      Served K r w ready (dsuHandleConnEpoll K epollfd r (events, w)).1
        (dsuHandleConnEpoll K epollfd r (events, w)).2.2 := by
  subst hs
  have hstart : Visited K r s.world (ready.filter (· ∈ ([] : List Int))) r s.world := by
    have hset : ready.filter (· ∈ ([] : List Int)) = ∅ := by simp
    rw [hset]
    exact .start r s.world
  have hpoll := foldl_entriesPoll_visits hK hr (slice fds start (stop - start)) [] t hfds (by rw [ht]; exact hstart)
  have hepoll := walk_entriesEpoll_visits hK hr epollfd events [] hevents hstart
  rw [List.nil_append, hfds.all hr] at hpoll
  rw [List.nil_append, hevents.all hr] at hepoll
  exact ⟨(dsuHandleConn_visits hK hr hbits).toServed, hpoll.toServed, hepoll.toServed⟩

/-- The records of a process that monitor are of this kind, whatever is ready, as long as the kernel does not hand out
    the number of a ready descriptor. -/
theorem Distinct.readySet {sockets pre post : List DsuSocket} (h : Distinct sockets (pre ++ r :: post) w)
    (hm : r.monitoring = true) (hpos : ∀ n ∈ r.shadowfd :: r.comfd :: r.comfds, 0 < n)
    (hready : ∀ d ∈ ready, d ∈ r.comfd :: r.comfds) (hfresh : ∀ n, K.number w = some n → n ∉ ready) :
    ReadySet K r w ready := by
  have hcount : ∀ n, 0 < n → r.numbers.count n ≤ w.openings n := fun n hn => by
    have hle := h.count n hn
    rw [numbersOf_count] at hle
    omega
  have hwatched : r.watched = r.comfd :: r.comfds := by simp [DsuSocket.watched, hm]
  have hnumbers : ∀ n, (r.comfd :: r.comfds).count n ≤ r.numbers.count n := fun n => by
    unfold DsuSocket.numbers
    rw [← hwatched, ← List.singleton_append, List.count_append, List.count_append]
    omega
  have hshadow : 0 < r.shadowfd := hpos _ List.mem_cons_self
  have hone := w.openings_le r.shadowfd
  have hself : 1 + (r.comfd :: r.comfds).count r.shadowfd ≤ r.numbers.count r.shadowfd := by
    unfold DsuSocket.numbers
    rw [← hwatched, ← List.singleton_append, List.count_append, List.count_append]
    split
    · rename_i he
      rw [he, List.count_singleton_self]
      omega
    · rw [List.count_singleton_self]
      omega
  have hopen := hcount r.shadowfd hshadow
  refine ⟨List.nodup_iff_count_le_one.mpr fun n => ?_, fun hmem => ?_, hready, hfresh, fun hmem => ?_, fun hacc he => ?_⟩
  · by_cases hn : n ∈ r.comfd :: r.comfds
    · have hle := hcount n (hpos n (List.mem_cons_of_mem _ hn))
      have hnum := hnumbers n
      have hlast := w.openings_le n
      omega
    · rw [List.count_eq_zero.mpr hn]
      omega
  · exact absurd (hpos (-1) (by simp [hmem])) (by omega)
  · have := List.count_pos_iff.mpr (hready _ hmem)
    omega
  · have hclosed := (accepted_new hacc).2.1
    rw [he, World.isOpen_of_openings (by omega)] at hclosed
    cases hclosed

/-- A kernel that finds the connection 6 closed and a request on the others. -/
def steadyKernel : Kernel :=
  { soloKernel with number := fun _ => some 9, recv := fun _ c => if c = 6 then .closed else .request }

/-- A record that answers on 5 and has the connections 6, 7 and 8. -/
def busy : DsuSocket :=
  { dsuSocketListInit with
    fd := 3, shadowfd := 4, port := 8080, comfd := 5, comfds := [6, 7, 8], monitoring := true }

def busyWorld : World :=
  { Proc.loaded.world with fdt := fun d => if 0 ≤ d ∧ d < 9 then some { id := d.toNat, kind := .com } else none }

/-- The array and the events are in an order of their own. -/
theorem handlers_agree_on_busy :
    let s : SelectPass :=
      { world := busyWorld, readfds := some {5, 6, 7}, correction := 0, transfer := false, maxFds := 9 }
    let fds := pollArray ([8, 7, 5, 6].map fun d => { fd := d, events := 1, revents := if d = 8 then 0 else 1 })
    let events := [6, 7, 5].map fun d => { ev := { events := 1, data := { fd := d, hi := 0 } }, origin := none }
    (dsuHandleConn steadyKernel busy s).1.comfds = [7, 8, 9] ∧
      Served steadyKernel busy busyWorld {5, 6, 7} (dsuHandleConn steadyKernel busy s).1
        (dsuHandleConn steadyKernel busy s).2.world ∧
      Served steadyKernel busy busyWorld {5, 6, 7}
        (dsuHandleConnPoll steadyKernel fds 0 4 busy { world := busyWorld, correction := 0 }).1
        (dsuHandleConnPoll steadyKernel fds 0 4 busy { world := busyWorld, correction := 0 }).2.world ∧
      Served steadyKernel busy busyWorld {5, 6, 7} (dsuHandleConnEpoll steadyKernel 20 busy (events, busyWorld)).1
        (dsuHandleConnEpoll steadyKernel 20 busy (events, busyWorld)).2.2 := by
  have hsteady : steadyKernel.Steady :=
    ⟨fun _ _ => rfl, fun _ _ => rfl, fun _ _ => rfl, fun _ _ => rfl, fun _ _ => rfl⟩
  have hfresh : ∀ n, steadyKernel.number busyWorld = some n → n ∉ ({5, 6, 7} : Finset Int) := by
    intro n hn
    cases hn
    decide
  have hready : ReadySet steadyKernel busy busyWorld {5, 6, 7} :=
    ⟨by decide, by decide, by decide, hfresh, by decide, fun _ => by decide⟩
  refine ⟨by decide, handlers_agree hsteady hready rfl ?_ rfl _ 0 4 ?_ 20 _ ?_⟩
  · exact ⟨by decide, by decide⟩
  · exact ⟨by decide, by decide⟩
  · exact ⟨by decide, by decide⟩

end OpenDSU
