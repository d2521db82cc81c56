import OpenDSU.Theorems.EpollData

/-! Which of the reported events `epoll_wait` returns.

An event is dropped where a record watches its number after the handlers. What a handler changes of a number is that
it accepts a connection under it, or finds the connection closed; then it marks the event with -1. -/

namespace OpenDSU

variable {K : Kernel} {p : Proc} {r r' : DsuSocket} {w w' w'' : World} {binds : List DsuSocket} {d : Int}
  {V V' W W' W'' : Prop}

/-! ### Numbers -/

/-- Between the two a handler has accepted a connection under the number. -/
def World.HasAccepted (w w' : World) (d : Int) : Prop := 0 ≤ d ∧ w'.accepts d ≠ w.accepts d

/-- What has become of the number `d`, which was watched if `W`, and is if `W'`. -/
structure Settles (d : Int) (W W' : Prop) (w w' : World) : Prop where
  closings : w.closings d ≤ w'.closings d
  accepts : w.accepts d ≤ w'.accepts d
  kept : W → w'.closings d = w.closings d → W'
  gained : W' → W ∨ w.HasAccepted w' d
  taken : w.HasAccepted w' d → w'.closings d = w.closings d → W'
  closed : w'.closings d ≠ w.closings d → W ∨ w.HasAccepted w' d

theorem Settles.refl (d : Int) (W : Prop) (w : World) : Settles d W W w w where
  closings := Nat.le_refl _
  accepts := Nat.le_refl _
  kept h _ := h
  gained := Or.inl
  taken h _ := absurd rfl h.2
  closed h := absurd rfl h

/-- What has been accepted in one of two steps has been accepted in both together. -/
theorem hasAccepted_iff (h : w.accepts d ≤ w'.accepts d) (h' : w'.accepts d ≤ w''.accepts d) :
    w.HasAccepted w'' d ↔ w.HasAccepted w' d ∨ w'.HasAccepted w'' d := by
  unfold World.HasAccepted
  rw [← and_or_left]
  refine and_congr_right fun _ => ?_
  omega

theorem Settles.trans (h : Settles d W W' w w') (h' : Settles d W' W'' w' w'') : Settles d W W'' w w'' := by
  have haccepted := hasAccepted_iff h.accepts h'.accepts
  refine ⟨h.closings.trans h'.closings, h.accepts.trans h'.accepts, fun hw he => ?_, fun hw => ?_, fun ha he => ?_,
    fun he => ?_⟩
  · obtain ⟨hfirst, hsecond⟩ := same_between h.closings h'.closings he
    exact h'.kept (h.kept hw hfirst) hsecond
  · rw [haccepted, ← or_assoc]
    exact (h'.gained hw).imp_left h.gained
  · obtain ⟨hfirst, hsecond⟩ := same_between h.closings h'.closings he
    rcases haccepted.mp ha with ha | ha
    · exact h'.kept (h.taken ha hfirst) hsecond
    · exact h'.taken ha hsecond
  · rw [haccepted, ← or_assoc]
    by_cases hfirst : w'.closings d = w.closings d
    · exact (h'.closed fun hsecond => he (hsecond.trans hfirst)).imp_left h.gained
    · exact Or.inl (h.closed hfirst)

/-- Two records, one after the other. -/
theorem Settles.or (h : Settles d W W' w w') (h' : Settles d V V' w' w'') : Settles d (W ∨ V) (W' ∨ V') w w'' := by
  have haccepted := hasAccepted_iff h.accepts h'.accepts
  refine ⟨h.closings.trans h'.closings, h.accepts.trans h'.accepts, fun hw he => ?_, fun hw => ?_, fun ha he => ?_,
    fun he => ?_⟩
  · obtain ⟨hfirst, hsecond⟩ := same_between h.closings h'.closings he
    exact hw.imp (h.kept · hfirst) (h'.kept · hsecond)
  · rw [haccepted, or_or_or_comm]
    exact hw.imp h.gained h'.gained
  · obtain ⟨hfirst, hsecond⟩ := same_between h.closings h'.closings he
    exact (haccepted.mp ha).imp (h.taken · hfirst) (h'.taken · hsecond)
  · rw [haccepted, or_or_or_comm]
    by_cases hfirst : w'.closings d = w.closings d
    · exact Or.inr (h'.closed fun hsecond => he (hsecond.trans hfirst))
    · exact Or.inl (h.closed hfirst)

theorem acceptConn_settles (d : Int) (r : DsuSocket) (w : World) :
    Settles d (d ∈ r.watched) (d ∈ (acceptConn K r w).1.watched) w (acceptConn K r w).2 := by
  have hclosings := acceptConn_closings (K := K) (w := w) r d
  have haccepts := acceptConn_accepts (K := K) r w d
  have hnumber : (w.accept K r.comfd .internal).1 = -1 ∨ 0 ≤ (w.accept K r.comfd .internal).1 := by
    rcases w.accept_cases K r.comfd .internal with ⟨hc, -⟩ | ⟨c, hc, hw⟩
    · exact Or.inl hc
    · exact Or.inr (hc ▸ hw.nonneg)
  have hwatched : d ∈ (acceptConn K r w).1.watched ↔
      d ∈ r.watched ∨ 0 ≤ d ∧ (w.accept K r.comfd .internal).1 = d := by
    unfold acceptConn World.accept4
    simp only
    split
    · rename_i hne
      simp only [DsuSocket.watched, dsuSocketAddFds, List.mem_append, List.mem_singleton, or_assoc]
      refine or_congr_right (or_congr_right ⟨fun he => ?_, fun he => he.2.symm⟩)
      rw [he]
      exact ⟨hnumber.resolve_left (by simpa using hne), rfl⟩
    · rename_i hne
      refine (or_iff_left fun he => ?_).symm
      have hminus : (w.accept K r.comfd .internal).1 = -1 := by simpa using hne
      omega
  have hgot : w.HasAccepted (acceptConn K r w).2 d ↔ 0 ≤ d ∧ (w.accept K r.comfd .internal).1 = d := by
    unfold World.HasAccepted
    refine and_congr_right fun _ => ?_
    rw [haccepts]
    split <;> simp_all
  exact {
    closings := hclosings.ge
    accepts := haccepts ▸ Nat.le_add_right _ _
    kept := fun h _ => hwatched.mpr (Or.inl h)
    gained := fun h => (hwatched.mp h).imp_right hgot.mpr
    taken := fun h _ => hwatched.mpr (Or.inr (hgot.mp h))
    closed := fun h => absurd hclosings h }

theorem answerConn_settles {c : Int} (hc : c ∈ r.comfds) (d : Int) (w : World) :
    Settles d (d ∈ r.watched) (d ∈ (answerConn K c r w).2.1.watched) w (answerConn K c r w).2.2 := by
  have haccepts := answerConn_accepts (K := K) c d r w
  have hclosings := answerConn_closings (K := K) (w := w) c d r
  refine ⟨hclosings ▸ Nat.le_add_right _ _, haccepts.ge, (answerConn_keeps c r w).watched d, fun h => ?_,
    fun h => absurd haccepts h.2, fun h => ?_⟩
  · rcases answerConn_cases K r w c with ⟨-, -, hr, -⟩ | ⟨-, -, -, hr | hr⟩ <;> rw [hr] at h
    · rw [DsuSocket.watched, List.mem_append] at h ⊢
      exact Or.inl (h.imp_right List.mem_of_mem_erase)
    · exact Or.inl h
    · exact Or.inl h
  · have hd : c = d := by
      by_contra hne
      rw [hclosings, if_neg fun hcd => hne hcd.2] at h
      exact h rfl
    exact Or.inl (List.mem_append_right _ (hd ▸ hc))

theorem Handles.settles {a a' : DsuSocket × World} (h : Handles K a a') (d : Int) :
    Settles d (d ∈ a.1.watched) (d ∈ a'.1.watched) a.2 a'.2 := by
  induction h with
  | refl => exact .refl d _ _
  | tail _ hs ih =>
    refine ih.trans ?_
    cases hs with
    | accept r w => exact acceptConn_settles d r w
    | answer hc => exact answerConn_settles hc d _
    | @unlist r w epollfd c =>
      have hclosings := World.epollCtl_closings (K := K) (w := w) epollfd .del c noEvent true d
      have haccepts := World.accepts_epollCtl (K := K) (w := w) epollfd .del c noEvent true d
      exact ⟨hclosings.ge, haccepts.ge, fun h _ => h, Or.inl, fun h => absurd haccepts h.2, fun h => absurd hclosings h⟩

theorem watched_cons (r : DsuSocket) (l : List DsuSocket) (d : Int) :
    Watched (r :: l) d ↔ d ∈ r.watched ∨ Watched l d := by
  unfold Watched
  simp

variable (K) in
theorem walk_handleConnEpoll_settles (epollfd : Int) (l : List DsuSocket) (es : List Event) (w : World) (d : Int) :
    Settles d (Watched l d) (Watched (walk (dsuHandleConnEpoll K epollfd) l (es, w)).1 d) w
      (walk (dsuHandleConnEpoll K epollfd) l (es, w)).2.2 := by
  induction l generalizing es w with
  | nil => exact .refl d _ w
  | cons r l ih =>
    have hr := (dsuHandleConnEpoll_handles K r epollfd (es, w)).settles d
    have hl := ih (dsuHandleConnEpoll K epollfd r (es, w)).2.1 (dsuHandleConnEpoll K epollfd r (es, w)).2.2
    rw [walk_cons, watched_cons, watched_cons]
    exact hr.or hl

/-! ### Marked events -/

theorem dsuHandleComfdsEpoll_marked (epollfd : Int) (cs : List Int) (e : Event) (r : DsuSocket) (w : World) (d : Int)
    (h : e.ev.data.fd = -1 ∨ (dsuHandleComfdsEpoll K epollfd cs e r w).2.2.closings d ≠ w.closings d) :
    (dsuHandleComfdsEpoll K epollfd cs e r w).1.ev.data.fd = -1 := by
  induction cs generalizing e r w with
  | nil => exact h.resolve_right fun hne => hne rfl
  | cons c cs ih =>
    rw [dsuHandleComfdsEpoll_cons] at h ⊢
    by_cases hc : e.ev.data.fd = c
    · simp only [if_pos hc] at h ⊢
      by_cases hclosed : (answerConn K c r w).1 = true
      · simp only [if_pos hclosed]
        exact ih _ _ _ (Or.inl rfl)
      · have hsame : (answerConn K c r w).2.2.closings d = w.closings d := by
          rw [answerConn_closings, if_neg fun hcd => hclosed hcd.1]
          exact Nat.add_zero _
        simp only [if_neg hclosed] at h ⊢
        refine ih _ _ _ (h.imp_right fun hne => ?_)
        rwa [hsame]
    · simp only [if_neg hc] at h ⊢
      exact ih _ _ _ h

theorem dsuHandleEntryEpoll_marked (epollfd : Int) (e : Event) (r : DsuSocket) (w : World) (d : Int)
    (h : e.ev.data.fd = -1 ∨ (dsuHandleEntryEpoll K epollfd e (r, w)).2.2.closings d ≠ w.closings d) :
    (dsuHandleEntryEpoll K epollfd e (r, w)).1.ev.data.fd = -1 := by
  unfold dsuHandleEntryEpoll at h ⊢
  simp only at h ⊢
  split at h
  · rename_i hnone
    rw [if_pos hnone]
    exact h.resolve_right fun hne => hne rfl
  · rename_i hsome
    rw [if_neg hsome]
    split at h
    · rename_i hcomfd
      rw [if_pos hcomfd]
      exact h.resolve_right fun hne => hne (acceptConn_closings r d)
    · rename_i hcomfd
      rw [if_neg hcomfd]
      exact dsuHandleComfdsEpoll_marked epollfd r.comfds e r w d h

theorem walk_entriesEpoll_marked (epollfd : Int) (es : List Event) (r : DsuSocket) (w : World) (d : Int)
    (h : (∃ e ∈ es, e.ev.data.fd = -1) ∨
      (walk (dsuHandleEntryEpoll K epollfd) es (r, w)).2.2.closings d ≠ w.closings d) :
    ∃ e ∈ (walk (dsuHandleEntryEpoll K epollfd) es (r, w)).1, e.ev.data.fd = -1 := by
  induction es generalizing r w with
  | nil => exact h.resolve_right fun hne => hne rfl
  | cons e es ih =>
    have hhead := dsuHandleEntryEpoll_marked (K := K) epollfd e r w d
    have htail := ih (dsuHandleEntryEpoll K epollfd e (r, w)).2.1 (dsuHandleEntryEpoll K epollfd e (r, w)).2.2
    rw [walk_cons] at h ⊢
    simp only [List.exists_mem_cons_iff] at h ⊢
    rcases h with (h | h) | h
    · exact Or.inl (hhead (Or.inl h))
    · exact Or.inr (htail (Or.inl h))
    · by_cases hfirst : (dsuHandleEntryEpoll K epollfd e (r, w)).2.2.closings d = w.closings d
      · exact Or.inr (htail (Or.inr fun hsecond => h (hsecond.trans hfirst)))
      · exact Or.inl (hhead (Or.inr hfirst))

theorem walk_handleConnEpoll_marked (epollfd : Int) (l : List DsuSocket) (es : List Event) (w : World) (d : Int)
    (h : (∃ e ∈ es, e.ev.data.fd = -1) ∨
      (walk (dsuHandleConnEpoll K epollfd) l (es, w)).2.2.closings d ≠ w.closings d) :
    ∃ e ∈ (walk (dsuHandleConnEpoll K epollfd) l (es, w)).2.1, e.ev.data.fd = -1 := by
  induction l generalizing es w with
  | nil => exact h.resolve_right fun hne => hne rfl
  | cons r l ih =>
    refine ih _ _ ?_
    by_cases hfirst : (dsuHandleConnEpoll K epollfd r (es, w)).2.2.closings d = w.closings d
    · exact h.imp (fun he => walk_entriesEpoll_marked epollfd es r w d (Or.inl he))
        fun hne hsecond => hne (hsecond.trans hfirst)
    · exact Or.inl (walk_entriesEpoll_marked epollfd es r w d (Or.inr hfirst))

/-! ### The events that are returned -/

/-- The event is returned: no record watches its number and no handler accepts a connection under it, or the
    connection is found closed and -1 is no number that is watched. -/
def Survives (binds : List DsuSocket) (w w' : World) (e : Event) : Prop :=
  (¬Watched binds e.ev.data.fd ∧ ¬w.HasAccepted w' e.ev.data.fd) ∨
    (w'.closings e.ev.data.fd ≠ w.closings e.ev.data.fd ∧ ¬Watched binds (-1))

theorem survives_tick {e : Event} : Survives binds w.tick w' e ↔ Survives binds w w' e := Iff.rfl

theorem dsuPostEpoll_eq_zero_iff (epollfd : Int) (es : List Event) (events : Nat → Event) :
    (dsuPostEpoll K epollfd p es events).2.1 = 0 ↔
      ∀ e ∈ (walk (dsuHandleConnEpoll K epollfd) p.binds (es, p.world)).2.1,
        Watched (walk (dsuHandleConnEpoll K epollfd) p.binds (es, p.world)).1 e.ev.data.fd := by
  unfold dsuPostEpoll
  simp only
  generalize walk (dsuHandleConnEpoll K epollfd) p.binds (es, p.world) = a
  obtain ⟨hmap, -⟩ := restore_watched (K := K) epollfd a.1 a.2.2
  generalize walk (dsuEpollOriginalfd K epollfd) (walk dsuEpollUnlock a.1 a.2.2).1 (walk dsuEpollUnlock a.1 a.2.2).2 = v
    at hmap ⊢
  have hlength : (dsuEpollCorrectEvents v.1 a.2.1.length (storeEvents a.2.1 events)).1 = _ :=
    (length_slice _ _ _).symm.trans (congrArg List.length (dsuEpollCorrectEvents_slice a.2.1 events))
  rw [hlength, List.length_map, List.length_eq_zero_iff, List.filter_eq_nil_iff]
  refine forall₂_congr fun e _ => ?_
  rw [Bool.not_eq_true, Bool.not_eq_false', dsuIsInternalConn_iff]
  exact ⟨fun h => h.of_map hmap.symm, fun h => h.of_map hmap⟩

/-- All events are dropped only where none survives, and exactly there if -1 is not watched. -/
theorem dsuPostEpoll_survivors (epollfd : Int) (es : List Event) (events : Nat → Event) :
    let post := dsuPostEpoll K epollfd p es events
    ((∃ e ∈ es, Survives p.binds p.world post.1.world e) → post.2.1 ≠ 0) ∧
      (¬Watched p.binds (-1) → post.2.1 ≠ 0 → ∃ e ∈ es, Survives p.binds p.world post.1.world e) := by
  have hzero := dsuPostEpoll_eq_zero_iff (K := K) (p := p) epollfd es events
  have hsettles := walk_handleConnEpoll_settles K epollfd p.binds es p.world
  have hmarked := walk_handleConnEpoll_marked (K := K) epollfd p.binds es p.world
  have hkeeps := walk_handleConnEpoll_keeps (K := K) epollfd p.binds es p.world
  simp only at hkeeps ⊢
  obtain ⟨-, hstems, -⟩ := hkeeps
  have hclosings : ∀ d, (dsuPostEpoll K epollfd p es events).1.world.closings d =
      (walk (dsuHandleConnEpoll K epollfd) p.binds (es, p.world)).2.2.closings d := (restore_watched epollfd _ _).2
  have haccepts : ∀ d, (dsuPostEpoll K epollfd p es events).1.world.accepts d =
      (walk (dsuHandleConnEpoll K epollfd) p.binds (es, p.world)).2.2.accepts d := fun d => (restore_told K epollfd _ _ d).2
  unfold Survives World.HasAccepted
  simp only [Ne, hzero, hclosings, haccepts]
  generalize walk (dsuHandleConnEpoll K epollfd) p.binds (es, p.world) = a at hsettles hmarked hstems ⊢
  constructor
  · rintro ⟨e, he, ⟨hnot, hnone⟩ | ⟨hclosed, hminus⟩⟩ hall
    · have hs := hsettles e.ev.data.fd
      have hsame : a.2.2.closings e.ev.data.fd = p.world.closings e.ev.data.fd := by
        by_contra hne
        exact (hs.closed hne).elim hnot hnone
      obtain ⟨e', he', hstem⟩ := hstems.forth e he
      have hw := hall e' he'
      rw [hstem.2 hsame] at hw
      exact (hs.gained hw).elim hnot hnone
    · obtain ⟨e', he', hfd⟩ := hmarked e.ev.data.fd (Or.inr hclosed)
      have hw := hall e' he'
      rw [hfd] at hw
      exact ((hsettles (-1)).gained hw).elim hminus fun h => absurd h.1 (by decide)
  · intro hminus hsome
    obtain ⟨e', he'⟩ := not_forall.mp hsome
    obtain ⟨he', hnot⟩ := Classical.not_imp.mp he'
    obtain ⟨e, he, hstem⟩ := hstems.back e' he'
    have hs := hsettles e.ev.data.fd
    refine ⟨e, he, ?_⟩
    by_cases hsame : a.2.2.closings e.ev.data.fd = p.world.closings e.ev.data.fd
    · rw [hstem.2 hsame] at hnot
      exact Or.inl ⟨fun hw => hnot (hs.kept hw hsame), fun ha => hnot (hs.taken ha hsame)⟩
    · exact Or.inr ⟨hsame, hminus⟩

end OpenDSU
