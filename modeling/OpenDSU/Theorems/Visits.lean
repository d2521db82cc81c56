import OpenDSU.Theorems.Effects

/-! The visits that a handler makes to the ready descriptors of a record. What they leave does not depend on their
order. -/

namespace OpenDSU

/-- The answers of the kernel do not depend on the order in which a handler asks, and no other process changes the
    shared memory in between. -/
structure Kernel.Steady (K : Kernel) : Prop where
  number : ∀ w w', K.number w = K.number w'
  accept : ∀ w w', K.accept w = K.accept w'
  recv : ∀ w w', K.recv w = K.recv w'
  getsockopt : ∀ w w', K.getsockopt w = K.getsockopt w'
  status : ∀ w port, K.status w port = w.status port

/-- The connection that a system call of a handler is made on. -/
def Sys.conn : Sys → Option Int
  | .recv fd _ | .sendmsg fd _ _ | .close fd => some fd
  | .accept4 .. | .trywait _ | .post _ => none

section Outcome
variable (K : Kernel) (r : DsuSocket) (w : World)

/-- What `accept4` on `comfd` returns. -/
def accepted : Int := (w.accept K r.comfd .internal).1

/-- The messages with the descriptors that can be sent. -/
def messages (c port : Int) : List Sys :=
  (if w.isOpen r.shadowfd && K.getsockopt w r.shadowfd then [.sendmsg c r.shadowfd port] else []) ++
    if w.isOpen r.comfd && K.getsockopt w r.comfd then [.sendmsg c r.comfd port] else []

/-- The visit of a connection. -/
def exchange (c : Int) : List Sys :=
  .recv c (w.recv K c).1 ::
    match (w.recv K c).1 with
    | .closed => [.close c]
    | .again => []
    | .error => messages K r w c (-1)
    | .request => messages K r w c r.port

/-- `comfds` after visits: without the connections that were found closed, and with the accepted one. -/
def leftComfds (visited : Finset Int) : List Int :=
  (r.comfds.filter fun c => !(decide (c ∈ visited) && decide ((w.recv K c).1 = .closed))) ++
    if r.comfd ∈ visited ∧ accepted K r w ≠ -1 then [accepted K r w] else []

/-- One of the visited connections has a request. -/
def requested (visited : Finset Int) : Bool :=
  r.comfds.any fun c => decide (c ∈ visited) && decide ((w.recv K c).1 = .request)

/-- The visits of some of the descriptors, each once, have left the record `r'` and the kernel's side `w'`. -/
structure Served (visited : Finset Int) (r' : DsuSocket) (w' : World) : Prop where
  record : r' = { r with
    comfds := leftComfds K r w visited
    transfer := r.transfer || requested K r w visited }
  status : w'.status r.port = { w.status r.port with
    transfer := (w.status r.port).transfer + if !r.transfer && requested K r w visited then 1 else 0 }
  log : ∃ es, w'.log = w.log ++ es ∧
    es.filter (·.conn = none) = (if r.comfd ∈ visited then [.accept4 r.comfd (accepted K r w)] else []) ∧
    ∀ c, es.filter (·.conn = some c) = if c ∈ r.comfds ∧ c ∈ visited then exchange K r w c else []

/-- The invariant of the visits: besides, what they have not closed or accepted is open or not as before. -/
structure Visited (visited : Finset Int) (r' : DsuSocket) (w' : World) : Prop extends Served K r w visited r' w' where
  isOpen : ∀ d, (d ∈ visited → d ∉ r.comfds) → (r.comfd ∈ visited → accepted K r w ≠ -1 → d ≠ accepted K r w) →
    w'.isOpen d = w.isOpen d

/-- A set of ready descriptors of a record, and what the kernel promises of `accept4` meanwhile. -/
structure ReadySet (ready : Finset Int) : Prop where
  nodup : (r.comfd :: r.comfds).Nodup
  valid : -1 ∉ r.comfds
  internal : ∀ d ∈ ready, d ∈ r.comfd :: r.comfds
  fresh : ∀ n, K.number w = some n → n ∉ ready
  shadow : r.shadowfd ∉ ready
  shadowNew : accepted K r w ≠ -1 → accepted K r w ≠ r.shadowfd

end Outcome

variable {K : Kernel} {r r' : DsuSocket} {w w' : World} {ready visited : Finset Int} {c d : Int}

/-! ### One visit -/

theorem dsuWriteFd_status (fd sendfd port : Int) : (dsuWriteFd K w fd sendfd port).status = w.status := by
  unfold dsuWriteFd
  split <;> rfl

/-- Both messages are sent or not by what is open before the answer. -/
theorem messages_log (hK : K.Steady) {v : World} (hopen : ∀ d, v.isOpen d = w.isOpen d) (c port : Int) :
    (dsuWriteFd K (dsuWriteFd K v c r.shadowfd port) c r.comfd port).log = v.log ++ messages K r w c port := by
  have hfirst := World.isOpen_congr (same_dsuWriteFd K v c r.shadowfd port).fdt
  have hsecond : (dsuWriteFd K v c r.shadowfd port).isOpen r.comfd = w.isOpen r.comfd := by
    rw [hfirst, hopen]
  rw [dsuWriteFd_log, dsuWriteFd_log, List.append_assoc, hsecond, hopen, hK.getsockopt v w,
    hK.getsockopt (dsuWriteFd K v c r.shadowfd port) w]
  rfl

theorem answerSection_record (st : Status) (r : DsuSocket) :
    (answerSection st r).2 = { r with transfer := true } := by
  unfold answerSection
  split
  · rename_i htransfer
    simp [← htransfer]
  · rfl

/-- What the answer does by the result of `dsu_recv`. -/
theorem answerConn_steady (hK : K.Steady) (c : Int) (r : DsuSocket) (w : World) :
    let a := answerConn K c r w
    let res := (w.recv K c).1
    a.2.1 = { r with
      comfds := if res = .closed then r.comfds.erase c else r.comfds
      transfer := r.transfer || decide (res = .request) } ∧
    a.2.2.status r.port = { w.status r.port with
      transfer := (w.status r.port).transfer + if !r.transfer && decide (res = .request) then 1 else 0 } ∧
    a.2.2.log = w.log ++ exchange K r w c ∧
    ∀ d, (res = .closed → d ≠ c) → a.2.2.isOpen d = w.isOpen d := by
  have hlog : (w.recv K c).2.log = w.log ++ [.recv c (w.recv K c).1] := rfl
  have hstatus : (w.recv K c).2.status = w.status := rfl
  rw [answerConn_eq]
  unfold exchange
  cases hres : (w.recv K c).1 with
  | closed =>
    have hclose := World.closes_close (w.recv K c).2 K c
    refine ⟨by simp, ?_, ?_, fun d hd => ?_⟩
    · simp [World.close_status, hstatus]
    · simp only [World.close_log, hlog, hres, List.append_assoc, List.singleton_append]
    · simp only [World.isOpen, hclose.fdt, if_neg (hd rfl)]
      rfl
  | again => exact ⟨by simp, by simp [hstatus], by simp only [hlog, hres], fun d _ => rfl⟩
  | error =>
    refine ⟨by simp, ?_, ?_, fun d _ => ?_⟩
    · simp [dsuWriteFd_status, hstatus]
    · have hmsgs := messages_log (r := r) hK (v := (w.recv K c).2) (w := w) (fun _ => rfl) c (-1)
      simp only [hmsgs, hlog, hres, List.append_assoc, List.singleton_append]
    · exact World.isOpen_congr ((same_dsuWriteFd K _ _ _ _).trans (same_dsuWriteFd K _ _ _ _)).fdt d
  | request =>
    have hwait : ((w.recv K c).2.waitStatus K r.port).2.status r.port = w.status r.port := by
      simp [World.waitStatus, hK.status, hstatus]
    simp only [hwait, answerSection_record]
    refine ⟨?_, ?_, ?_, fun d _ => ?_⟩
    · simp
    · simp only [dsuWriteFd_status, World.setStatus, if_true]
      unfold answerSection
      split <;> simp_all
    · have hmsgs := fun st => messages_log (r := r) hK
        (v := (((w.recv K c).2.waitStatus K r.port).2.setStatus r.port st)) (w := w) (fun _ => rfl) c r.port
      have hset : ∀ st, (((w.recv K c).2.waitStatus K r.port).2.setStatus r.port st).log =
          w.log ++ [.recv c (w.recv K c).1] := fun _ => hlog
      simp only [hmsgs, hset, hres, List.append_assoc, List.singleton_append]
    · exact World.isOpen_congr ((same_dsuWriteFd K _ _ _ _).trans (same_dsuWriteFd K _ _ _ _)).fdt d

/-! ### What the visits leave -/

theorem Sys.conn_of_mem_exchange {e : Sys} (he : e ∈ exchange K r w c) : e.conn = some c := by
  unfold exchange messages at he
  cases hres : (w.recv K c).1 <;> simp [hres] at he
  · rcases he with rfl | rfl <;> rfl
  · rw [he]
    rfl
  · rcases he with rfl | ⟨-, rfl⟩ | ⟨-, rfl⟩ <;> rfl
  · rcases he with rfl | ⟨-, rfl⟩ | ⟨-, rfl⟩ <;> rfl

theorem exchange_filter_none (c : Int) : (exchange K r w c).filter (·.conn = none) = [] := by
  refine List.filter_eq_nil_iff.mpr fun e he => ?_
  simp [Sys.conn_of_mem_exchange he]

theorem exchange_filter_some (c d : Int) :
    (exchange K r w c).filter (·.conn = some d) = if d = c then exchange K r w c else [] := by
  split
  · rename_i hd
    refine List.filter_eq_self.mpr fun e he => ?_
    simp [Sys.conn_of_mem_exchange he, hd]
  · rename_i hd
    refine List.filter_eq_nil_iff.mpr fun e he => ?_
    simp [Sys.conn_of_mem_exchange he, Ne.symm hd]

/-- The visit of `comfd` adds a connection, if one is accepted. -/
theorem leftComfds_comfd (hr : ReadySet K r w ready) (hd : r.comfd ∉ visited) :
    leftComfds K r w (insert r.comfd visited) =
      leftComfds K r w visited ++ if accepted K r w ≠ -1 then [accepted K r w] else [] := by
  have hnot : ∀ c ∈ r.comfds, c ≠ r.comfd := fun c hc he => (List.nodup_cons.mp hr.nodup).1 (he ▸ hc)
  unfold leftComfds
  simp only [Finset.mem_insert_self, true_and, hd, false_and, if_false, List.append_nil]
  refine congrArg (· ++ _) (List.filter_congr fun c hc => ?_)
  simp [hnot c hc]

/-- The visit of a connection takes it off, if it is found closed. -/
theorem leftComfds_conn (hr : ReadySet K r w ready) (hc : c ∈ r.comfds) (hv : c ∉ visited) :
    leftComfds K r w (insert c visited) =
      if (w.recv K c).1 = .closed then (leftComfds K r w visited).erase c else leftComfds K r w visited := by
  obtain ⟨hcomfd, hnodup⟩ := List.nodup_cons.mp hr.nodup
  have hne : r.comfd ≠ c := fun he => hcomfd (he ▸ hc)
  unfold leftComfds
  simp only [Finset.mem_insert, hne, false_or]
  by_cases hclosed : (w.recv K c).1 = .closed
  · have hmem : c ∈ r.comfds.filter fun c => !(decide (c ∈ visited) && decide ((w.recv K c).1 = .closed)) := by
      simp [hc, hv]
    rw [if_pos hclosed, List.erase_append_left _ hmem, (hnodup.filter _).erase_eq_filter, List.filter_filter]
    refine congrArg (· ++ _) (List.filter_congr fun x _ => ?_)
    by_cases hx : x = c <;> simp [hx, hclosed]
  · rw [if_neg hclosed]
    refine congrArg (· ++ _) (List.filter_congr fun x _ => ?_)
    by_cases hx : x = c <;> simp [hx, hclosed]

theorem requested_comfd (hr : ReadySet K r w ready) :
    requested K r w (insert r.comfd visited) = requested K r w visited := by
  have hnot : ∀ c ∈ r.comfds, c ≠ r.comfd := fun c hc he => (List.nodup_cons.mp hr.nodup).1 (he ▸ hc)
  unfold requested
  rw [Bool.eq_iff_iff, List.any_eq_true, List.any_eq_true]
  refine exists_congr fun c => and_congr_right fun hc => ?_
  simp [hnot c hc]

theorem requested_conn (hc : c ∈ r.comfds) : requested K r w (insert c visited) =
    (requested K r w visited || decide ((w.recv K c).1 = .request)) := by
  unfold requested
  rw [Bool.eq_iff_iff]
  simp only [Finset.mem_insert, List.any_eq_true, Bool.and_eq_true, Bool.or_eq_true, decide_eq_true_eq]
  constructor
  · rintro ⟨x, hx, rfl | hv, hreq⟩
    · exact Or.inr hreq
    · exact Or.inl ⟨x, hx, hv, hreq⟩
  · rintro (⟨x, hx, hv, hreq⟩ | hreq)
    · exact ⟨x, hx, Or.inr hv, hreq⟩
    · exact ⟨c, hc, Or.inl rfl, hreq⟩

theorem Visited.start (r : DsuSocket) (w : World) : Visited K r w ∅ r w where
  record := by
    have hrequested : requested K r w ∅ = false := by simp [requested]
    rw [hrequested, Bool.or_false]
    simp [leftComfds]
  status := by simp [requested]
  log := ⟨[], by simp⟩
  isOpen _ _ _ := rfl

/-- What `accept4` returns. -/
theorem accept_eq (K : Kernel) (w : World) (fd : Int) (kind : Kind) : (w.accept K fd kind).1 =
    if w.isOpen fd && K.accept w fd then
      match K.number w with
      | some n => if 0 ≤ n && !w.isOpen n then n else -1
      | none => -1
    else -1 := by
  unfold World.accept World.allot
  split
  · cases K.number w with
    | none => rfl
    | some n =>
      simp only
      split <;> rfl
  · rfl

/-- `accept4` opens what it returns, and nothing else. -/
theorem accept_isOpen (K : Kernel) (w : World) (fd d : Int) (kind : Kind)
    (hd : (w.accept K fd kind).1 ≠ -1 → d ≠ (w.accept K fd kind).1) :
    (w.accept K fd kind).2.isOpen d = w.isOpen d := by
  rcases w.accept_cases K fd kind with ⟨-, hw⟩ | ⟨c, hc, hw⟩
  · exact World.isOpen_congr hw.fdt d
  · have hne : c ≠ -1 := by
      have := hw.nonneg
      omega
    rw [hc] at hd
    simp [World.isOpen, hw.fdt, hd hne]

theorem acceptConn_eq (K : Kernel) (r : DsuSocket) (w : World) : acceptConn K r w =
    (if accepted K r w ≠ -1 then { r with comfds := r.comfds ++ [accepted K r w] } else r,
      (w.accept K r.comfd .internal).2.record (.accept4 r.comfd (accepted K r w))) :=
  rfl

section Visits
variable {v : World}

/-- What `accept4` returns is a number that was not open. -/
theorem accepted_new (hacc : accepted K r w ≠ -1) : K.number w = some (accepted K r w) ∧
    w.isOpen (accepted K r w) = false ∧ w.isOpen r.comfd = true := by
  have heq := accept_eq K w r.comfd .internal
  change accepted K r w = _ at heq
  split at heq
  · rename_i hcond
    cases hn : K.number w with
    | none => simp [hn, hacc] at heq
    | some n =>
      simp only [hn] at heq
      split at heq
      · rename_i hfree
        simp only [Bool.and_eq_true, Bool.not_eq_true', decide_eq_true_eq] at hcond hfree
        rw [heq]
        exact ⟨rfl, hfree.2, hcond.1⟩
      · exact absurd heq hacc
  · exact absurd heq hacc

/-- The ready descriptors that have not been visited are open or not as before, and so are those that are sent. -/
theorem Visited.isOpen_eq (hr : ReadySet K r w ready) (hsub : visited ⊆ ready) (hv : Visited K r w visited r' v)
    (hd : d ∈ ready ∧ d ∉ visited ∨ d = r.shadowfd ∨ d = r.comfd) : v.isOpen d = w.isOpen d := by
  have hopen : ∀ hacc : accepted K r w ≠ -1, d ≠ accepted K r w := by
    rintro hacc rfl
    obtain ⟨hnumber, hclosed, hcomfd⟩ := accepted_new hacc
    rcases hd with ⟨hd, -⟩ | hd | hd
    · exact hr.fresh _ hnumber hd
    · exact hr.shadowNew hacc hd
    · rw [hd, hcomfd] at hclosed
      cases hclosed
  refine hv.isOpen d (fun hvd hc => ?_) fun _ => hopen
  rcases hd with ⟨-, hd⟩ | rfl | rfl
  · exact hd hvd
  · exact hr.shadow (hsub hvd)
  · exact (List.nodup_cons.mp hr.nodup).1 hc

theorem Visited.comfd_eq (hv : Visited K r w visited r' v) : r'.comfd = r.comfd := by rw [hv.record]

theorem Visited.accepted_eq (hK : K.Steady) (hr : ReadySet K r w ready) (hsub : visited ⊆ ready)
    (hv : Visited K r w visited r' v) (hd : r.comfd ∉ visited) : accepted K r' v = accepted K r w := by
  unfold accepted
  rw [accept_eq, accept_eq, hv.comfd_eq, hv.isOpen_eq hr hsub (.inr (.inr rfl)), hK.accept v w, hK.number v w]
  cases hn : K.number w with
  | none => rfl
  | some n =>
    have hopen : v.isOpen n = w.isOpen n :=
      hv.isOpen n (fun hvn => absurd (hsub hvn) (hr.fresh n hn)) fun hvd => absurd hvd hd
    simp only [hopen]

/-- The visit of `comfd`. -/
theorem Visited.accept (hK : K.Steady) (hr : ReadySet K r w ready) (hsub : visited ⊆ ready)
    (hv : Visited K r w visited r' v) (hd : r.comfd ∉ visited) :
    Visited K r w (insert r.comfd visited) (acceptConn K r' v).1 (acceptConn K r' v).2 := by
  have hacc := hv.accepted_eq hK hr hsub hd
  obtain ⟨es, hlog, hnone, hsome⟩ := hv.log
  rw [acceptConn_eq, hacc, hv.comfd_eq]
  refine ⟨⟨?_, ?_, ?_⟩, ?_⟩
  · rw [leftComfds_comfd hr hd, requested_comfd hr, hv.record]
    split <;> simp
  · rw [requested_comfd hr, ← hv.status]
    exact congrFun (v.accept_status K r.comfd .internal) r.port
  · have hlog' : ((v.accept K r.comfd .internal).2.record (.accept4 r.comfd (accepted K r w))).log =
        v.log ++ [.accept4 r.comfd (accepted K r w)] :=
      congrArg (· ++ _) (v.accept_log K r.comfd .internal)
    refine ⟨es ++ [.accept4 r.comfd (accepted K r w)], by rw [hlog', hlog, List.append_assoc], ?_, fun c => ?_⟩
    · rw [List.filter_append, hnone, if_neg hd, if_pos (Finset.mem_insert_self _ _)]
      rfl
    · have hcomfd := (List.nodup_cons.mp hr.nodup).1
      rw [List.filter_append, hsome]
      have hiff : (c ∈ r.comfds ∧ c ∈ insert r.comfd visited) ↔ c ∈ r.comfds ∧ c ∈ visited := by
        refine and_congr_right fun hc => ?_
        rw [Finset.mem_insert]
        exact or_iff_right fun he => hcomfd (he ▸ hc)
      simp only [hiff]
      exact List.append_nil _
  · intro d hvd hne
    have hstep := accept_isOpen K v r.comfd d .internal
    rw [show (v.accept K r.comfd .internal).1 = accepted K r w from hv.comfd_eq ▸ hacc] at hstep
    refine (hstep fun h => hne (Finset.mem_insert_self _ _) h).trans (hv.isOpen d (fun h => ?_) fun h => absurd h hd)
    exact hvd (Finset.mem_insert_of_mem h)

theorem exchange_eq (hK : K.Steady) (hr : ReadySet K r w ready) (hsub : visited ⊆ ready)
    (hv : Visited K r w visited r' v) (hc : c ∈ ready) (hcv : c ∉ visited) :
    (v.recv K c).1 = (w.recv K c).1 ∧ exchange K r' v c = exchange K r w c := by
  have hrecv : (v.recv K c).1 = (w.recv K c).1 := by
    unfold World.recv
    rw [hv.isOpen_eq hr hsub (.inl ⟨hc, hcv⟩), hK.recv v w]
  have hmsgs : messages K r' v c = messages K r w c := by
    funext port
    unfold messages
    rw [hv.record]
    simp only [hv.isOpen_eq hr hsub (.inr (.inl rfl)), hv.isOpen_eq hr hsub (.inr (.inr rfl)), hK.getsockopt v w]
  refine ⟨hrecv, ?_⟩
  unfold exchange
  rw [hrecv, hmsgs, hv.record]

/-- The visit of a connection. -/
theorem Visited.answer (hK : K.Steady) (hr : ReadySet K r w ready) (hsub : visited ⊆ ready)
    (hv : Visited K r w visited r' v) (hc : c ∈ r.comfds) (hcr : c ∈ ready) (hcv : c ∉ visited) :
    Visited K r w (insert c visited) (answerConn K c r' v).2.1 (answerConn K c r' v).2.2 := by
  obtain ⟨hrecord, hstatus, hanswer, hopen⟩ := answerConn_steady hK c r' v
  obtain ⟨hrecv, hexchange⟩ := exchange_eq hK hr hsub hv hcr hcv
  obtain ⟨es, hlog, hnone, hsome⟩ := hv.log
  have hne : r.comfd ≠ c := fun he => (List.nodup_cons.mp hr.nodup).1 (he ▸ hc)
  rw [hrecv] at hrecord hstatus hopen
  refine ⟨⟨?_, ?_, ?_⟩, ?_⟩
  · rw [hrecord, leftComfds_conn hr hc hcv, requested_conn hc, hv.record, Bool.or_assoc]
  · have hport : r'.port = r.port := by rw [hv.record]
    rw [← hport, hstatus, hport, hv.status, requested_conn hc, hv.record]
    cases r.transfer <;> cases requested K r w visited <;> simp
  · refine ⟨es ++ exchange K r w c, by rw [hanswer, hlog, hexchange, List.append_assoc], ?_, fun d => ?_⟩
    · rw [List.filter_append, hnone, exchange_filter_none, List.append_nil]
      simp [hne]
    · rw [List.filter_append, hsome, exchange_filter_some]
      by_cases hd : d = c
      · simp [hd, hc, hcv]
      · simp [hd]
  · intro d hvd hne
    have hdc : d ≠ c := by
      rintro rfl
      exact hvd (Finset.mem_insert_self _ _) hc
    rw [hopen d fun _ => hdc]
    exact hv.isOpen d (fun h => hvd (Finset.mem_insert_of_mem h)) fun h => hne (Finset.mem_insert_of_mem h)

/-- A step that only changes the interest list of an epoll instance. -/
theorem Visited.unlist (hv : Visited K r w visited r' v) (epollfd : Int) (fd : Int) :
    Visited K r w visited r' (v.epollCtl K epollfd .del fd noEvent true).2 := by
  obtain ⟨hlog, hstatus⟩ := v.epollCtl_log_status K epollfd .del fd noEvent true
  refine ⟨⟨hv.record, by rw [hstatus, hv.status], by rw [hlog]; exact hv.log⟩, fun d hvd hne => ?_⟩
  exact (World.isOpen_congr (v.epollCtl_fdt K ..) d).trans (hv.isOpen d hvd hne)

end Visits

end OpenDSU
