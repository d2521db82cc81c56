import OpenDSU.Ledger
import OpenDSU.Theorems.Calls

/-! The lists against what the program knows: a call changes both alike, or a descriptor that the program has is
not where its use says. -/

open Relation

namespace OpenDSU

/-- What the program knows of a record. -/
def DsuSocket.entry (r : DsuSocket) : Int × List Int := (r.fd, r.fds)

variable {K : Kernel} {p q : Proc} {l : Ledger} {w w' : World} {binds : List DsuSocket} {r r' : DsuSocket} {n c : Int}

theorem Exact.socket_iff (h : Exact p l) : (∃ s ∈ p.sockets, s.fd = n) ↔ l n = some .socket := by
  rw [← List.mem_map, ← List.count_pos_iff, h.sockets]
  split <;> simp [*]

theorem Exact.bound_iff (h : Exact p l) : (∃ r ∈ p.binds, r.fd = n) ↔ l n = some .bound := by
  rw [← List.mem_map, ← List.count_pos_iff, h.binds]
  split <;> simp [*]

theorem Exact.mem_fds_iff (h : Exact p l) (hr : r ∈ p.binds) : n ∈ r.fds ↔ l n = some (.connection r.fd) := by
  rw [← List.count_pos_iff, h.fds r hr]
  split <;> simp [*]

/-- The tracked numbers are those of the program. -/
theorem Exact.mem_tracked (h : Exact p l) (hn : l n ≠ none) : n ∈ p.tracked := by
  unfold Proc.tracked
  cases hu : l n with
  | none => exact absurd hu hn
  | some u =>
    cases u with
    | socket =>
      obtain ⟨s, hs, rfl⟩ := h.socket_iff.mpr hu
      exact List.mem_flatMap.mpr ⟨s, List.mem_append_left _ hs, List.mem_cons_self⟩
    | bound =>
      obtain ⟨r, hr, rfl⟩ := h.bound_iff.mpr hu
      exact List.mem_flatMap.mpr ⟨r, List.mem_append_right _ hr, List.mem_cons_self⟩
    | connection sockfd =>
      obtain ⟨r, hr, rfl⟩ := h.bound_iff.mpr (h.connected n sockfd hu)
      have hmem := (h.mem_fds_iff hr).mpr hu
      exact List.mem_flatMap.mpr ⟨r, List.mem_append_right _ hr, List.mem_cons_of_mem _ hmem⟩

theorem Exact.known (h : Exact p l) (hn : n ∈ p.tracked) : l n ≠ none := by
  obtain ⟨r, hr, hmem⟩ := List.mem_flatMap.mp hn
  rcases List.mem_append.mp hr with hr | hr <;> rcases List.mem_cons.mp hmem with rfl | hmem
  · simp [h.socket_iff.mp ⟨r, hr, rfl⟩]
  · rw [h.unbound r hr] at hmem
    cases hmem
  · simp [h.bound_iff.mp ⟨r, hr, rfl⟩]
  · simp [(h.mem_fds_iff hr).mp hmem]

/-- The record that a search for a bound socket returns is the only one of that number. -/
theorem Exact.fd_ne {pre post : List DsuSocket} (h : Exact p l) (hbinds : p.binds = pre ++ r :: post) :
    ∀ x ∈ pre ++ post, x.fd ≠ r.fd := by
  have hcount := h.binds r.fd
  have hbound : l r.fd = some .bound := h.bound_iff.mp ⟨r, by simp [hbinds], rfl⟩
  rw [hbinds, if_pos hbound, List.map_append, List.map_cons, List.count_append, List.count_cons_self] at hcount
  intro x hx he
  rcases List.mem_append.mp hx with hx | hx
  · have hpos : 0 < (pre.map (·.fd)).count r.fd := List.count_pos_iff.mpr (List.mem_map.mpr ⟨x, hx, he⟩)
    omega
  · have hpos : 0 < (post.map (·.fd)).count r.fd := List.count_pos_iff.mpr (List.mem_map.mpr ⟨x, hx, he⟩)
    omega

/-- What the searches of `close` for the program's numbers do not find, the program does not know. -/
theorem Exact.unlisted (h : Exact p l) (hsockets : dsuSocketsSearchFd p.sockets c = none)
    (hbinds : dsuSocketsSearchFd p.binds c = none) (hclient : dsuSocketsSearchFds p.binds c .nonInternal = none) :
    l c = none := by
  cases hu : l c with
  | none => rfl
  | some u =>
    cases u with
    | socket =>
      obtain ⟨s, hs, he⟩ := h.socket_iff.mpr hu
      exact absurd he (fd_ne_of_search_none hsockets s hs)
    | bound =>
      obtain ⟨r, hr, he⟩ := h.bound_iff.mpr hu
      exact absurd he (fd_ne_of_search_none hbinds r hr)
    | connection sockfd =>
      obtain ⟨r, hr, rfl⟩ := h.bound_iff.mpr (h.connected c sockfd hu)
      have hmem := (h.mem_fds_iff hr).mpr hu
      exact absurd (List.find?_eq_none.mp hclient r hr) (by simp [DsuSocket.listens, hmem])

/-- Nothing but the descriptors of the program in the lists matters. -/
theorem Exact.congr (h : Exact p l) (hsockets : q.sockets = p.sockets)
    (hbinds : q.binds.map DsuSocket.entry = p.binds.map DsuSocket.entry) : Exact q l where
  sockets := hsockets ▸ h.sockets
  binds n := by
    have hmap : ∀ l : List DsuSocket, l.map (·.fd) = (l.map DsuSocket.entry).map Prod.fst := by simp [DsuSocket.entry]
    rw [hmap, hbinds, ← hmap, h.binds]
  unbound := hsockets ▸ h.unbound
  fds r hr n := by
    obtain ⟨r₀, hr₀, he⟩ := List.mem_map.mp (hbinds ▸ List.mem_map_of_mem hr)
    obtain ⟨hfd, hfds⟩ := Prod.ext_iff.mp he
    change r₀.fd = r.fd at hfd
    change r₀.fds = r.fds at hfds
    rw [← hfds, ← hfd]
    exact h.fds r₀ hr₀ n
  connected := h.connected

/-! ### Descriptors of the library -/

theorem Effect.entry (h : Effect (r, w) (r', w')) : r'.entry = r.entry := by
  cases h with
  | quiet hr _ => exact Prod.ext hr.fd hr.fds
  | quit _ hr _ => exact Prod.ext hr.fd hr.fds
  | accepted _ hr _ => exact Prod.ext hr.fd hr.fds
  | closed _ _ hr _ => exact Prod.ext hr.fd hr.fds
  | locked hr _ => exact Prod.ext hr.fd hr.fds
  | unlocked _ hr _ => exact Prod.ext hr.fd hr.fds

theorem Changes.entries {c c' : List DsuSocket × World} (h : Changes c c') :
    c'.1.map DsuSocket.entry = c.1.map DsuSocket.entry :=
  h.map Effect.entry

/-- A write to a record that leaves what the program knows of it. -/
theorem entries_update {test : DsuSocket → Bool} {f : DsuSocket → DsuSocket} (hf : ∀ r, (f r).entry = r.entry) :
    (dsuSocketsUpdate test f binds).map DsuSocket.entry = binds.map DsuSocket.entry :=
  map_dsuSocketsUpdate hf binds

/-! ### What the program gets -/

theorem Ledger.update_iff {u v : Use} (h : l c ≠ some v) (hne : v ≠ u) :
    Function.update l c (some u) n = some v ↔ l n = some v := by
  by_cases hn : n = c
  · subst hn
    simp [h, Ne.symm hne]
  · simp [hn]

theorem Ledger.count_update {u : Use} (h : l c ≠ some u) (n : Int) :
    (if Function.update l c (some u) n = some u then 1 else 0) = (if l n = some u then 1 else 0) + [c].count n := by
  rw [List.count_singleton]
  by_cases hn : n = c
  · subst hn
    simp [h]
  · simp [hn, Ne.symm hn]

/-- A socket joins the list. -/
theorem Exact.opened {s : DsuSocket} (h : Exact p l) (hc : ∀ u, l s.fd ≠ some u)
    (hsockets : q.sockets = p.sockets ++ [s]) (hbinds : q.binds = p.binds) (hfds : s.fds = []) :
    Exact q (Function.update l s.fd (some .socket)) where
  sockets n := by
    rw [hsockets, List.map_append, List.count_append, h.sockets, Ledger.count_update (hc _)]
    rfl
  binds n := by
    simp only [Ledger.update_iff (hc _) (by simp : Use.bound ≠ .socket), hbinds]
    exact h.binds n
  unbound := by
    rw [hsockets]
    exact List.forall_mem_append.mpr ⟨h.unbound, by simp [hfds]⟩
  fds r hr n := by
    simp only [Ledger.update_iff (hc _) (by simp : Use.connection r.fd ≠ .socket)]
    exact h.fds r (hbinds ▸ hr) n
  connected n sockfd hn := by
    rw [Ledger.update_iff (hc _) (by simp)] at hn ⊢
    exact h.connected n sockfd hn

/-- A connection joins the record of its socket. -/
theorem Exact.accepted {pre post : List DsuSocket} (h : Exact p l) (hc : ∀ u, l c ≠ some u)
    (hsockets : q.sockets = p.sockets) (hold : p.binds = pre ++ r :: post)
    (hnew : q.binds = pre ++ { r with fds := r.fds ++ [c] } :: post) :
    Exact q (Function.update l c (some (.connection r.fd))) where
  sockets n := by
    simp only [Ledger.update_iff (hc _) (by simp : Use.socket ≠ .connection r.fd), hsockets]
    exact h.sockets n
  binds n := by
    have hfds : q.binds.map (·.fd) = p.binds.map (·.fd) := by simp [hold, hnew]
    simp only [Ledger.update_iff (hc _) (by simp : Use.bound ≠ .connection r.fd), hfds]
    exact h.binds n
  unbound := hsockets ▸ h.unbound
  fds x hx n := by
    rw [hnew, List.mem_append, List.mem_cons, or_left_comm, ← List.mem_append] at hx
    rcases hx with rfl | hx
    · have hr := h.fds r (by simp [hold]) n
      change (r.fds ++ [c]).count n = _
      exact (Ledger.count_update (hc (.connection r.fd)) n ▸ hr ▸ List.count_append)
    · have hne : Use.connection x.fd ≠ .connection r.fd := by simp [h.fd_ne hold x hx]
      simp only [Ledger.update_iff (hc _) hne]
      exact h.fds x (mem_of_split hold hx) n
  connected n s hn := by
    rw [Ledger.update_iff (hc _) (by simp)]
    by_cases hnc : n = c
    · rw [hnc, Function.update_self] at hn
      cases hn
      exact h.bound_iff.mp ⟨r, by simp [hold], rfl⟩
    · rw [Function.update_of_ne hnc] at hn
      exact h.connected n s hn

/-- A record is moved to `binds`. -/
theorem Exact.moved {pre post : List DsuSocket} {s s' : DsuSocket} (h : Exact p l)
    (hold : p.sockets = pre ++ s :: post) (hsockets : q.sockets = pre ++ post) (hbinds : q.binds = p.binds ++ [s'])
    (hfd : s'.fd = s.fd) (hfds : s'.fds = s.fds) : Exact q (Function.update l s.fd (some .bound)) := by
  have hsocket : l s.fd = some .socket := h.socket_iff.mp ⟨s, by simp [hold], rfl⟩
  have hother : ∀ v, v ≠ Use.socket → l s.fd ≠ some v := fun v hv he => by simp [hsocket, hv.symm] at he
  refine ⟨fun n => ?_, fun n => ?_, fun x hx => ?_, fun x hx n => ?_, fun n k hn => ?_⟩
  · have hcount := h.sockets n
    rw [hold, List.map_append, List.map_cons, List.count_append] at hcount
    rw [hsockets, List.map_append, List.count_append]
    by_cases hn : n = s.fd
    · subst hn
      rw [if_pos hsocket, List.count_cons_self] at hcount
      rw [Function.update_self, if_neg (by simp)]
      omega
    · rw [List.count_cons_of_ne (Ne.symm hn)] at hcount
      rw [Function.update_of_ne hn, hcount]
  · rw [hbinds, List.map_append, List.count_append, h.binds, Ledger.count_update (hother _ (by simp)), ← hfd]
    rfl
  · rw [hsockets] at hx
    exact h.unbound x (mem_of_split hold hx)
  · rw [hbinds, List.mem_append, List.mem_singleton] at hx
    simp only [Ledger.update_iff (hother (.connection x.fd) (by simp)) (by simp : Use.connection x.fd ≠ .bound)]
    rcases hx with hx | rfl
    · exact h.fds x hx n
    · have hnone : l n ≠ some (.connection x.fd) := fun hn => by
        have := h.connected n x.fd hn
        rw [hfd, hsocket] at this
        cases this
      rw [if_neg hnone, hfds, h.unbound s (by simp [hold])]
      rfl
  · rw [Ledger.update_iff (hother _ (by simp)) (by simp)] at hn
    have hbound := h.connected n k hn
    by_cases hk : k = s.fd
    · rw [hk, Function.update_self]
    · rw [Function.update_of_ne hk]
      exact hbound

/-! ### What the program closes -/

/-- What is closed has no use, nor have its connections. -/
theorem Ledger.close_iff {u : Use} : l.after K p (.close c) n = some u ↔
    l n = some u ∧ n ≠ c ∧ u ≠ .connection c := by
  simp only [Ledger.after]
  split
  · rename_i h
    refine iff_of_false (by simp) fun ⟨hn, hne, hu⟩ => ?_
    rcases h with h | h
    · exact hne h
    · exact hu (Option.some.inj (hn.symm.trans h))
  · rename_i h
    rw [not_or] at h
    exact ⟨fun hn => ⟨hn, h.1, fun hu => h.2 (hu ▸ hn)⟩, fun hn => hn.1⟩

/-- What is closed makes no difference to other uses. -/
theorem Ledger.close_other {u v : Use} (hc : l c = some v) (hne : u ≠ v) (hu : u ≠ .connection c) :
    l.after K p (.close c) n = some u ↔ l n = some u := by
  rw [Ledger.close_iff]
  refine and_iff_left_of_imp fun hn => ⟨fun he => hne ?_, hu⟩
  rw [he, hc] at hn
  exact (Option.some.inj hn).symm

/-- A number that the program does not know is closed without a change. -/
theorem Exact.close_unknown (h : Exact p l) (hc : l c = none) : l.after K p (.close c) = l := by
  funext n
  simp only [Ledger.after]
  split
  · rename_i hn
    rcases hn with rfl | hn
    · exact hc.symm
    · rw [h.connected n c hn] at hc
      cases hc
  · rfl

theorem Exact.close_connected (h : Exact p l) (n k : Int) (hn : l.after K p (.close c) n = some (.connection k)) :
    l.after K p (.close c) k = some .bound := by
  obtain ⟨hn, -, hk⟩ := Ledger.close_iff.mp hn
  exact Ledger.close_iff.mpr ⟨h.connected n k hn, fun he => hk (he ▸ rfl), by simp⟩

section Close
variable {pre post : List DsuSocket}

theorem Exact.closeSocket {s : DsuSocket} (h : Exact p l) (hold : p.sockets = pre ++ s :: post)
    (hsockets : q.sockets = pre ++ post) (hbinds : q.binds = p.binds) :
    Exact q (l.after K p (.close s.fd)) := by
  have hsocket : l s.fd = some .socket := h.socket_iff.mp ⟨s, by simp [hold], rfl⟩
  refine ⟨fun n => ?_, fun n => ?_, fun x hx => ?_, fun r hr n => ?_, h.close_connected⟩
  · have hcount := h.sockets n
    rw [hold, List.map_append, List.map_cons, List.count_append] at hcount
    rw [hsockets, List.map_append, List.count_append]
    simp only [Ledger.close_iff]
    by_cases hn : n = s.fd
    · subst hn
      rw [if_pos hsocket, List.count_cons_self] at hcount
      rw [if_neg (by simp)]
      omega
    · rw [List.count_cons_of_ne (Ne.symm hn)] at hcount
      simp [hn, hcount]
  · simp only [Ledger.close_other hsocket (by simp : Use.bound ≠ .socket) (by simp), hbinds]
    exact h.binds n
  · rw [hsockets] at hx
    exact h.unbound x (mem_of_split hold hx)
  · rw [hbinds] at hr
    have hne : r.fd ≠ s.fd := fun he => by
      have hbound := h.bound_iff.mp ⟨r, hr, he⟩
      rw [hsocket] at hbound
      cases hbound
    simp only [Ledger.close_other hsocket (by simp : Use.connection r.fd ≠ .socket) (by simpa using hne)]
    exact h.fds r hr n

theorem Exact.closeBound (h : Exact p l) (hold : p.binds = pre ++ r :: post) (hsockets : q.sockets = p.sockets)
    (hbinds : q.binds = pre ++ post) : Exact q (l.after K p (.close r.fd)) := by
  have hbound : l r.fd = some .bound := h.bound_iff.mp ⟨r, by simp [hold], rfl⟩
  refine ⟨fun n => ?_, fun n => ?_, hsockets ▸ h.unbound, fun x hx n => ?_, h.close_connected⟩
  · simp only [Ledger.close_other hbound (by simp : Use.socket ≠ .bound) (by simp), hsockets]
    exact h.sockets n
  · have hcount := h.binds n
    rw [hold, List.map_append, List.map_cons, List.count_append] at hcount
    rw [hbinds, List.map_append, List.count_append]
    simp only [Ledger.close_iff]
    by_cases hn : n = r.fd
    · subst hn
      rw [if_pos hbound, List.count_cons_self] at hcount
      rw [if_neg (by simp)]
      omega
    · rw [List.count_cons_of_ne (Ne.symm hn)] at hcount
      simp [hn, hcount]
  · rw [hbinds] at hx
    have hne := h.fd_ne hold x hx
    simp only [Ledger.close_other hbound (by simp : Use.connection x.fd ≠ .bound) (by simpa using hne)]
    exact h.fds x (mem_of_split hold hx) n

theorem Exact.closeConnection (h : Exact p l) (hold : p.binds = pre ++ r :: post) (hc : c ∈ r.fds)
    (hsockets : q.sockets = p.sockets) (hbinds : q.binds = pre ++ { r with fds := r.fds.erase c } :: post) :
    Exact q (l.after K p (.close c)) := by
  have hr : r ∈ p.binds := by simp [hold]
  have hconn : l c = some (.connection r.fd) := (h.mem_fds_iff hr).mp hc
  have hne : ∀ x ∈ p.binds, x.fd ≠ c := fun x hx he => by
    have hbound := h.bound_iff.mp ⟨x, hx, he⟩
    rw [hconn] at hbound
    cases hbound
  refine ⟨fun n => ?_, fun n => ?_, hsockets ▸ h.unbound, fun x hx n => ?_, h.close_connected⟩
  · simp only [Ledger.close_other hconn (by simp : Use.socket ≠ .connection r.fd) (by simp), hsockets]
    exact h.sockets n
  · have hfds : q.binds.map (·.fd) = p.binds.map (·.fd) := by simp [hold, hbinds]
    simp only [Ledger.close_other hconn (by simp : Use.bound ≠ .connection r.fd) (by simp), hfds]
    exact h.binds n
  · rw [hbinds, List.mem_append, List.mem_cons, or_left_comm, ← List.mem_append] at hx
    rcases hx with rfl | hx
    · have hcount := h.fds r hr n
      simp only [Ledger.close_iff]
      by_cases hn : n = c
      · subst hn
        rw [if_pos hconn] at hcount
        rw [List.count_erase_self, hcount, if_neg (by simp)]
      · rw [List.count_erase_of_ne hn, hcount]
        simp [hn, hne r hr]
    · have hmem := mem_of_split hold hx
      have hother : Use.connection x.fd ≠ .connection r.fd := by simpa using h.fd_ne hold x hx
      simp only [Ledger.close_other hconn hother (by simpa using hne x hmem)]
      exact h.fds x hmem n

end Close

end OpenDSU
