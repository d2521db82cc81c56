import OpenDSU.Lib.Rename
import OpenDSU.Theorems.Calls

/-! The two names of a bound socket, and what the calls leave of them and of the descriptors that a record
watches. -/

open Relation

namespace OpenDSU

def DsuSocket.names (r : DsuSocket) : Int × Int := (r.fd, r.shadowfd)

variable {K : Kernel} {p q : Proc} {binds binds' : List DsuSocket}

theorem dsuShadowfd_eq (binds : List DsuSocket) (fd : Int) :
    dsuShadowfd binds fd = nameOf (binds.map DsuSocket.names) fd := by
  induction binds with
  | nil => rfl
  | cons r binds ih =>
    rw [List.map_cons, nameOf_cons, ← ih]
    unfold dsuShadowfd dsuSocketsSearchFd
    rw [List.find?_cons]
    by_cases h : fd = r.fd
    · simp [h, DsuSocket.names]
    · simp [DsuSocket.names, h, beq_eq_false_iff_ne.mpr (Ne.symm h)]

theorem dsuOriginalfd_eq (binds : List DsuSocket) (fd : Int) :
    dsuOriginalfd binds fd = nameOf ((binds.map DsuSocket.names).map Prod.swap) fd := by
  induction binds with
  | nil => rfl
  | cons r binds ih =>
    rw [List.map_cons, List.map_cons, nameOf_cons, ← ih]
    unfold dsuOriginalfd dsuSocketsSearchShadowfd
    rw [List.find?_cons]
    by_cases h : fd = r.shadowfd
    · simp [h, DsuSocket.names]
    · simp [DsuSocket.names, h, beq_eq_false_iff_ne.mpr (Ne.symm h)]

theorem dsuShadowfd_congr (h : binds'.map DsuSocket.names = binds.map DsuSocket.names) (fd : Int) :
    dsuShadowfd binds' fd = dsuShadowfd binds fd := by
  rw [dsuShadowfd_eq, dsuShadowfd_eq, h]

theorem dsuOriginalfd_congr (h : binds'.map DsuSocket.names = binds.map DsuSocket.names) (fd : Int) :
    dsuOriginalfd binds' fd = dsuOriginalfd binds fd := by
  rw [dsuOriginalfd_eq, dsuOriginalfd_eq, h]

theorem Effect.names {r r' : DsuSocket} {w w' : World} (h : Effect (r, w) (r', w')) : r'.names = r.names := by
  cases h with
  | quiet hr _ => exact Prod.ext hr.fd hr.shadowfd
  | quit _ hr _ => exact Prod.ext hr.fd hr.shadowfd
  | accepted _ hr _ => exact Prod.ext hr.fd hr.shadowfd
  | closed _ _ hr _ => exact Prod.ext hr.fd hr.shadowfd
  | locked hr _ => exact Prod.ext hr.fd hr.shadowfd
  | unlocked _ hr _ => exact Prod.ext hr.fd hr.shadowfd

theorem Changes.names {c c' : List DsuSocket × World} (h : Changes c c') :
    c'.1.map DsuSocket.names = c.1.map DsuSocket.names :=
  h.map Effect.names

theorem Proc.Evolves.names (h : p.Evolves q) : q.binds.map DsuSocket.names = p.binds.map DsuSocket.names :=
  h.changes.names

/-- The translation before a wait changes nothing of a record but its lock. -/
theorem asks_map {β : Type} {g : DsuSocket → β} (hg : ∀ r, g { r with locked := true } = g r)
    {c c' : List DsuSocket × World} (h : ReflTransGen (Within Ask) c c') : c'.1.map g = c.1.map g := by
  induction h with
  | refl => rfl
  | tail _ hs ih =>
    cases hs with
    | step pre post hs =>
      cases hs with
      | quiet _ => exact ih
      | locked _ =>
        rw [← ih]
        simp [hg]

/-- Some record watches the descriptor. -/
def Watched (binds : List DsuSocket) (d : Int) : Prop := ∃ r ∈ binds, d ∈ r.watched

theorem Watched.of_map {l l' : List DsuSocket} (h : l'.map DsuSocket.watched = l.map DsuSocket.watched) {d : Int}
    (hd : Watched l d) : Watched l' d := by
  have hmap : ∀ l, Watched l d ↔ ∃ ds ∈ l.map DsuSocket.watched, d ∈ ds := by simp [Watched]
  rw [hmap l', h, ← hmap l]
  exact hd

/-! ### The descriptors of the records -/

def Proc.socketFds (p : Proc) : List Int := (p.sockets ++ p.binds).map DsuSocket.fd

theorem mem_fds_of_update {test : DsuSocket → Bool} {f : DsuSocket → DsuSocket} {sockets : List DsuSocket} {d : Int}
    (hd : d ∈ (sockets ++ dsuSocketsUpdate test f binds).map DsuSocket.fd) (hf : ∀ r, (f r).fd = r.fd) :
    d ∈ (sockets ++ binds).map DsuSocket.fd := by
  rwa [List.map_append, map_dsuSocketsUpdate hf, ← List.map_append] at hd

theorem close_socketFds (sockfd : Int) : ∀ d ∈ (close K p sockfd).socketFds, d ∈ p.socketFds := by
  have hremove : ∀ l : List DsuSocket, (dsuSocketsRemoveFd l sockfd).map DsuSocket.fd ⊆ l.map DsuSocket.fd :=
    fun l => (List.eraseP_sublist.map _).subset
  unfold close Proc.socketFds
  repeat' split
  · exact fun d hd => hd
  · simp only [List.map_append, List.mem_append]
    exact fun d hd => hd.imp_left fun h => hremove _ h
  · simp only [List.map_append, List.mem_append]
    exact fun d hd => hd.imp_right fun h => hremove _ h
  · exact fun d hd => mem_fds_of_update hd fun _ => rfl
  · exact fun d hd => mem_fds_of_update hd fun _ => rfl
  · exact fun d hd => mem_fds_of_update hd fun _ => rfl
  · exact fun d hd => hd

theorem bind_socketFds (sockfd : Int) (port : Nat) : ∀ d ∈ (bind K p sockfd port).2.socketFds, d ∈ p.socketFds := by
  have hbound : ∀ {s s₀ : DsuSocket} {w : World}, Bound p s w (bind K p sockfd port).2 →
      s₀ ∈ p.sockets → s.fd = s₀.fd → ∀ d ∈ (bind K p sockfd port).2.socketFds, d ∈ p.socketFds := by
    intro s s₀ w hb hs₀ hfd d hd
    obtain ⟨s', hbinds, hs', -⟩ := hb.binds
    unfold Proc.socketFds at hd ⊢
    rw [hbinds, hb.sockets] at hd
    simp only [List.map_append, List.mem_append, List.map_cons, List.map_nil, List.mem_singleton] at hd ⊢
    rcases hd with hd | hd | hd
    · exact Or.inl ((List.eraseP_sublist.map _).subset hd)
    · exact Or.inr hd
    · rw [hd, hs', hfd]
      exact Or.inl (List.mem_map_of_mem hs₀)
  rcases bind_cases K p sockfd port with ⟨-, hp⟩ | ⟨s, hs, ⟨-, hb⟩ | ⟨-, hb⟩⟩
  · rw [hp]
    exact fun d hd => hd
  · exact hbound hb (mem_of_search_fd hs).1 rfl
  · refine hbound hb (mem_of_search_fd hs).1 ?_
    rw [dsuInheritFd_eq]
    split <;> rfl

/-- A step brings in no descriptor but that of a new socket. -/
theorem stepped_socketFds (h : Stepped K p q) : ∀ d ∈ q.socketFds, d ∈ p.socketFds ∨ 0 < d := by
  cases h with
  | socket =>
    unfold socket Proc.socketFds
    simp only
    split
    · rename_i hpos
      simp only [dsuSocketsAdd, List.map_append, List.mem_append, List.map_cons, List.map_nil, List.mem_singleton]
      rintro d ((hd | hd) | hd)
      · exact Or.inl (Or.inl hd)
      · exact Or.inr (hd ▸ hpos)
      · exact Or.inl (Or.inr hd)
    · exact fun d hd => Or.inl hd
  | bind sockfd port => exact fun d hd => Or.inl (bind_socketFds sockfd port d hd)
  | accept sockfd =>
    unfold accept
    simp only
    generalize p.world.accept K (dsuShadowfd p.binds sockfd) _ = session
    split
    · exact fun d hd => Or.inl hd
    · exact fun d hd => Or.inl (mem_fds_of_update hd fun _ => rfl)
  | close sockfd => exact fun d hd => Or.inl (close_socketFds sockfd d hd)
  | epollCtl epfd op fd event =>
    unfold epollCtl
    split
    · exact fun d hd => Or.inl hd
    · exact fun d hd => Or.inl (mem_fds_of_update hd fun _ => rfl)
  | event he =>
    have hfd : q.binds.map DsuSocket.fd = p.binds.map DsuSocket.fd := by
      have hnames := congrArg (List.map Prod.fst) he.names
      rwa [List.map_map, List.map_map] at hnames
    unfold Proc.socketFds
    rw [List.map_append, List.map_append, hfd, he.sockets]
    exact fun d hd => Or.inl hd

theorem fd_pos_of_reachable (h : (procMachine K).Reachable p) : ∀ d ∈ p.socketFds, 0 < d := by
  refine h.invariant (I := fun p => ∀ d ∈ p.socketFds, 0 < d) (fun p hp => ?_) fun p call q hpos hs d hd => ?_
  · simp [Proc.socketFds, hp.sockets, hp.binds]
  · exact (stepped_socketFds (Proc.step_inv hs).2 d hd).elim (hpos d) id

end OpenDSU
