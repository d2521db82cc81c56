import OpenDSU.Theorems.PollRevents

/-! Whether `ppoll` serves the internal descriptors that became ready.

The handlers go through the translated array from index `nfds` on, the length of the caller's array. The
appended entries begin at the number of the entries that were kept. -/

open Relation

namespace OpenDSU

/-- The internal descriptor that a system call of a handler is about. -/
def Sys.examined : Sys → Option Int
  | .accept4 fd _ => some fd
  | .recv fd _ => some fd
  | _ => none

/-- The descriptors on which `dsu_accept4` and `dsu_recv` were called. -/
def World.examined (w : World) : List Int := w.log.filterMap Sys.examined

variable {K : Kernel} {p : Proc} {w : World} {fds : List PollFd}

/-! ### The handlers -/

theorem World.close_examined (fd : Int) : (w.close K fd).examined = w.examined := by
  unfold close World.examined
  split <;> simp [record, Sys.examined]

theorem dsuWriteFd_examined (fd sendfd port : Int) : (dsuWriteFd K w fd sendfd port).examined = w.examined := by
  unfold dsuWriteFd World.examined
  split <;> simp [World.record, World.tick, Sys.examined]

theorem acceptConn_examined (r : DsuSocket) : (acceptConn K r w).2.examined = w.examined ++ [r.comfd] := by
  change ((w.accept K r.comfd .internal).2.record _).examined = _
  simp [World.examined, World.record, World.accept_log, Sys.examined]

theorem answerConn_examined (c : Int) (r : DsuSocket) : (answerConn K c r w).2.2.examined = w.examined ++ [c] := by
  have hrecv : (w.recv K c).2.examined = w.examined ++ [c] := by
    simp [World.recv, World.record, World.examined, Sys.examined]
  rw [answerConn_eq]
  cases (w.recv K c).1 with
  | closed => exact (World.close_examined c).trans hrecv
  | again => exact hrecv
  | error => exact (dsuWriteFd_examined _ _ _).trans ((dsuWriteFd_examined _ _ _).trans hrecv)
  | request => exact (dsuWriteFd_examined _ _ _).trans ((dsuWriteFd_examined _ _ _).trans hrecv)

/-- Where two states differ by calls on descriptors of `L`. -/
def Examines (w : World) (L : List Int) (w' : World) : Prop := w'.examined = w.examined ++ L

theorem Examines.trans {w w' w'' : World} {L M : List Int} (h : Examines w L w') (h' : Examines w' M w'') :
    Examines w (L ++ M) w'' := by
  unfold Examines at h h' ⊢
  rw [h', h, List.append_assoc]

/-- A connection that is not closed by an answer stays in its list. -/
theorem mem_answerConn {c d : Int} {r : DsuSocket} (hd : d ∈ r.comfds) (hne : d ≠ c) :
    d ∈ (answerConn K c r w).2.1.comfds := by
  rcases answerConn_cases K r w c with ⟨-, -, hr, -⟩ | ⟨-, -, -, hr | hr⟩ <;> rw [hr]
  · exact (List.mem_erase_of_ne hne).mpr hd
  · exact hd
  · exact hd

theorem answerConn_comfd (c : Int) (r : DsuSocket) : (answerConn K c r w).2.1.comfd = r.comfd := by
  rcases answerConn_cases K r w c with ⟨-, -, hr, -⟩ | ⟨-, -, -, hr | hr⟩ <;> rw [hr]

theorem dsuHandleComfdsPoll_examines (fd : Int) (cs : List Int) (r : DsuSocket) (w : World) :
    Examines w (cs.filter (· = fd)) (dsuHandleComfdsPoll K fd cs r w).2 ∧
    (dsuHandleComfdsPoll K fd cs r w).1.comfd = r.comfd ∧
    ∀ d ∈ r.comfds, d ≠ fd → d ∈ (dsuHandleComfdsPoll K fd cs r w).1.comfds := by
  induction cs generalizing r w with
  | nil => exact ⟨by simp [Examines, dsuHandleComfdsPoll], rfl, fun _ hd _ => hd⟩
  | cons c cs ih =>
    rw [dsuHandleComfdsPoll_cons]
    by_cases hc : fd = c
    · subst hc
      obtain ⟨hex, hcom, hkeep⟩ := ih (answerConn K fd r w).2.1 (answerConn K fd r w).2.2
      have hself : Examines w [fd] (answerConn K fd r w).2.2 := answerConn_examined fd r
      rw [if_pos rfl, List.filter_cons_of_pos (by simp)]
      exact ⟨hself.trans hex, hcom.trans (answerConn_comfd fd r), fun d hd hne => hkeep d (mem_answerConn hd hne) hne⟩
    · rw [if_neg hc, List.filter_cons_of_neg (by simpa using Ne.symm hc)]
      exact ih r w

/-- A ready entry of a record's descriptor is examined, and nothing else; the other descriptors stay. -/
theorem dsuHandleEntryPoll_examines (r : DsuSocket) (s : PollPass) (e : PollFd) :
    ∃ L, Examines s.world L (dsuHandleEntryPoll K (r, s) e).2.world ∧
      (∀ c ∈ L, e.revents ≠ 0 ∧ c = e.fd) ∧
      (e.revents ≠ 0 → e.fd = r.comfd ∨ e.fd ∈ r.comfds → e.fd ∈ L) ∧
      (dsuHandleEntryPoll K (r, s) e).1.comfd = r.comfd ∧
      ∀ d ∈ r.comfds, e.revents = 0 ∨ d ≠ e.fd → d ∈ (dsuHandleEntryPoll K (r, s) e).1.comfds := by
  rw [dsuHandleEntryPoll_eq]
  by_cases hr : e.revents = 0
  · rw [if_pos hr]
    exact ⟨[], by simp [Examines], by simp, fun h => absurd hr h, rfl, fun d hd _ => hd⟩
  · rw [if_neg hr]
    simp only
    by_cases hfd : e.fd = r.comfd
    · rw [if_pos hfd]
      refine ⟨[r.comfd], acceptConn_examined r, by simp [hr, hfd], fun _ _ => by simp [hfd], ?_, fun d hd _ => ?_⟩
      · unfold acceptConn
        simp only
        split <;> rfl
      · unfold acceptConn
        simp only
        split
        · exact List.mem_append_left _ hd
        · exact hd
    · rw [if_neg hfd]
      obtain ⟨hex, hcom, hkeep⟩ := dsuHandleComfdsPoll_examines (K := K) e.fd r.comfds r s.world
      refine ⟨_, hex, fun c hc => ⟨hr, ?_⟩, fun _ h => ?_, hcom, fun d hd h => hkeep d hd (h.resolve_left hr)⟩
      · simpa using List.of_mem_filter hc
      · exact List.mem_filter.mpr ⟨h.resolve_left hfd, by simp⟩

theorem foldl_entriesPoll_examines (es : List PollFd) (r : DsuSocket) (s : PollPass) :
    ∃ L, Examines s.world L (es.foldl (dsuHandleEntryPoll K) (r, s)).2.world ∧
      (∀ c ∈ L, ∃ e ∈ es, e.revents ≠ 0 ∧ e.fd = c) ∧
      ∀ e ∈ es, e.revents ≠ 0 → e.fd = r.comfd ∨ e.fd ∈ r.comfds → e.fd ∈ L := by
  induction es generalizing r s with
  | nil => exact ⟨[], by simp [Examines], by simp, by simp⟩
  | cons x es ih =>
    obtain ⟨L, hL, honly, hself, hcom, hkeep⟩ := dsuHandleEntryPoll_examines (K := K) r s x
    obtain ⟨M, hM, hrest, hall⟩ := ih (dsuHandleEntryPoll K (r, s) x).1 (dsuHandleEntryPoll K (r, s) x).2
    refine ⟨L ++ M, hL.trans hM, fun c hc => ?_, fun e he hr hfd => ?_⟩
    · rcases List.mem_append.mp hc with hc | hc
      · obtain ⟨hx, rfl⟩ := honly c hc
        exact ⟨x, List.mem_cons_self, hx, rfl⟩
      · obtain ⟨e, he, h⟩ := hrest c hc
        exact ⟨e, List.mem_cons_of_mem _ he, h⟩
    · -- An earlier entry of the same descriptor has had it examined.
      by_cases hx : x.revents ≠ 0 ∧ x.fd = e.fd
      · exact List.mem_append_left _ (hx.2 ▸ hself hx.1 (hx.2 ▸ hfd))
      · refine List.mem_append_right _ ?_
        rcases List.mem_cons.mp he with rfl | he
        · exact absurd ⟨hr, rfl⟩ hx
        · refine hall e he hr (hfd.imp (fun h => h.trans hcom.symm) fun h => hkeep _ h ?_)
          by_cases hzero : x.revents = 0
          · exact Or.inl hzero
          · exact Or.inr fun h => hx ⟨hzero, h.symm⟩

/-! ### The calls -/

/-- The descriptors that `dsu_handle_conn_poll` examines for a record. -/
def examinedFor (K : Kernel) (fds' : Nat → PollFd) (start stop : Nat) (r : DsuSocket) (s : PollPass) : List Int :=
  (dsuHandleConnPoll K fds' start stop r s).2.world.examined.drop s.world.examined.length

theorem mem_examinedFor {fds' : Nat → PollFd} {start stop : Nat} {r : DsuSocket} {s : PollPass} {c : Int} :
    (c ∈ examinedFor K fds' start stop r s →
      ∃ i, start ≤ i ∧ i < stop ∧ (fds' i).revents ≠ 0 ∧ (fds' i).fd = c) ∧
    (c = r.comfd ∨ c ∈ r.comfds →
      (∃ i, start ≤ i ∧ i < stop ∧ (fds' i).revents ≠ 0 ∧ (fds' i).fd = c) →
      c ∈ examinedFor K fds' start stop r s) := by
  obtain ⟨L, hL, honly, hall⟩ := foldl_entriesPoll_examines (K := K) (slice fds' start (stop - start)) r s
  have hdrop : examinedFor K fds' start stop r s = L := by
    unfold examinedFor dsuHandleConnPoll
    rw [hL, List.drop_left]
  rw [hdrop]
  constructor
  · intro hc
    obtain ⟨e, he, hr, hfd⟩ := honly c hc
    obtain ⟨i, hi, hi', rfl⟩ := mem_slice.mp he
    exact ⟨i, hi, by omega, hr, hfd⟩
  · rintro hc ⟨i, hi, hi', hr, rfl⟩
    exact hall _ (mem_slice.mpr ⟨i, hi, by omega, rfl⟩) hr hc

section Serve
variable (K) (p) (fds)

/-- What the handlers for the records of `pre` leave for the next one, on the array `a` of the kernel. -/
def pollPassAfter (a : (Nat → PollFd) × Nat) (pre : List DsuSocket) : PollPass :=
  (walk (dsuHandleConnPoll K a.1 fds.length a.2) pre
    { world := (pollAsk K (dsuInitializeEvent K p) fds).proc.world.tick, correction := 0 }).2

/-- Every appended entry that is ready is examined for its record, and no entry of the program is. -/
structure Proc.PollServed (a : (Nat → PollFd) × Nat) : Prop where
  examined : ∀ pre r post, (pollAsk K (dsuInitializeEvent K p) fds).proc.binds = pre ++ r :: post →
    ∀ i, p.kept K fds ≤ i → i < a.2 → (a.1 i).revents ≠ 0 → (a.1 i).fd ∈ r.watched →
      (a.1 i).fd ∈ examinedFor K a.1 fds.length a.2 r (pollPassAfter K p fds a pre)
  apart : ∀ pre r post, (pollAsk K (dsuInitializeEvent K p) fds).proc.binds = pre ++ r :: post →
    ∀ c ∈ examinedFor K a.1 fds.length a.2 r (pollPassAfter K p fds a pre),
      ∃ i, p.kept K fds ≤ i ∧ i < a.2 ∧ (a.1 i).revents ≠ 0 ∧ (a.1 i).fd = c

end Serve

variable {a : (Nat → PollFd) × Nat} {timeout : Option Nat}

/-- An appended entry belongs to a record. -/
theorem exists_record (ha : a ∈ p.polled K fds timeout) {i : Nat} (hi : p.kept K fds ≤ i) (hi' : i < a.2) :
    ∃ pre r post, (pollAsk K (dsuInitializeEvent K p) fds).proc.binds = pre ++ r :: post ∧
      (a.1 i).fd ∈ r.watched := by
  unfold Proc.polled at ha
  simp only at ha
  split at ha
  · cases ha
  · obtain ⟨found, hfound, rfl⟩ := Option.map_eq_some_iff.mp ha
    have hnew := (pollAsk_appended K (dsuInitializeEvent K p) fds).new i hi hi'
    obtain ⟨r, hr, hc⟩ := List.mem_flatMap.mp hnew
    obtain ⟨pre, post, hsplit⟩ := List.append_of_mem hr
    exact ⟨pre, r, post, hsplit, by rw [World.ppoll_fd hfound]; exact hc⟩

/-- `ppoll` serves what became ready if and only if each ready appended entry has its descriptor at an index
    that is not below `nfds`. -/
theorem pollServed_iff (timeout : Option Nat) (ha : a ∈ p.polled K fds timeout) :
    p.PollServed K fds a ↔ ∀ i, p.kept K fds ≤ i → i < a.2 → (a.1 i).revents ≠ 0 →
      ∃ j, fds.length ≤ j ∧ j < a.2 ∧ (a.1 j).revents ≠ 0 ∧ (a.1 j).fd = (a.1 i).fd := by
  constructor
  · intro h i hi hi' hr
    obtain ⟨pre, r, post, hsplit, hfd⟩ := exists_record ha hi hi'
    exact mem_examinedFor.1 (h.examined pre r post hsplit i hi hi' hr hfd)
  · intro h
    refine ⟨fun pre r post _ i hi hi' hr hfd => ?_, fun pre r post _ c hc => ?_⟩
    · refine mem_examinedFor.2 ?_ (h i hi hi' hr)
      rcases List.mem_append.mp hfd with hfd | hfd
      · split at hfd
        · exact Or.inl (List.mem_singleton.mp hfd)
        · cases hfd
      · exact Or.inr hfd
    · obtain ⟨j, hj, hj', hr, hfd⟩ := mem_examinedFor.1 hc
      exact ⟨j, (pollKept_spec K (dsuInitializeEvent K p) fds).1.trans hj, hj', hr, hfd⟩

/-- A new version connects, and the connection is the second entry of the array. -/
theorem pollServed_of_one_socket : ∃ p a, (procMachine connectKernel).run .loaded [.socket, .bind 3 8080] = some p ∧
    p.polled connectKernel [{ fd := 3, events := pollin, revents := 0 }] none = some a ∧
    (p.PollServed connectKernel [{ fd := 3, events := pollin, revents := 0 }] a ↔
      ∀ i, p.kept connectKernel [{ fd := 3, events := pollin, revents := 0 }] ≤ i → i < a.2 → (a.1 i).revents ≠ 0 →
        ∃ j, 1 ≤ j ∧ j < a.2 ∧ (a.1 j).revents ≠ 0 ∧ (a.1 j).fd = (a.1 i).fd) :=
  ⟨_, _, rfl, rfl, pollServed_iff none rfl⟩

/-- With an entry that is -1 in front, the entry of `comfd` 4 comes before index `nfds`, and nobody accepts. -/
theorem connection_not_served : ∃ p a, (procMachine connectKernel).run .loaded [.socket, .bind 3 8080] = some p ∧
    p.polled connectKernel
      [{ fd := -1, events := pollin, revents := 0 }, { fd := 3, events := pollin, revents := 0 }] none = some a ∧
    (a.1 1).fd = 4 ∧ (a.1 1).revents = 1 ∧ p.binds.map (·.comfd) = [4] ∧
    ¬p.PollServed connectKernel
      [{ fd := -1, events := pollin, revents := 0 }, { fd := 3, events := pollin, revents := 0 }] a := by
  refine ⟨_, _, rfl, rfl, rfl, rfl, rfl, fun h => ?_⟩
  have hexamined := h.examined [] _ [] rfl 1 (by decide) (by decide) (by decide) (by decide)
  exact absurd hexamined (by decide)

end OpenDSU
