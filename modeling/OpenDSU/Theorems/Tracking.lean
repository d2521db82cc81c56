import OpenDSU.Theorems.ExactLists
import OpenDSU.Theorems.Numbers

/-! The library tracks exactly what the program has, in every run.

What the program has is open, so that no new number is one of its own. The library closes only what it watches for
itself, and outside of 0, 1 and 2 that is no number of the program. -/

open Relation

namespace OpenDSU

/-- The numbers that the library watches for itself. -/
def watchedOf (binds : List DsuSocket) : List Int := binds.flatMap DsuSocket.watched

/-- What exact tracking depends on: `socket` is not given 0; 0, 1 and 2 are closed only while they are not tracked;
    and in an event call the library watches none of them that is tracked. -/
def Call.Clear (K : Kernel) (p : Proc) : Call → Prop
  | .socket => (p.world.allot K .user).1 ≠ 0
  | .close sockfd => isStd sockfd = true → sockfd ∉ p.tracked
  | .select .. | .ppoll .. | .epollWait .. => ∀ fd ∈ watchedOf p.binds, isStd fd = true → fd ∉ p.tracked
  | .bind .. | .accept _ | .epollCtl .. => True

/-- 1 for a number that the program uses. -/
def Ledger.held (l : Ledger) (n : Int) : Nat := if l n = none then 0 else 1

/-- The numbers of the program are open, and outside of 0, 1 and 2 there is room for what the library watches. -/
structure Room (l : Ledger) (binds : List DsuSocket) (w : World) : Prop where
  nonneg : ∀ n, l n ≠ none → 0 ≤ n
  low : ∀ n, l.held n ≤ w.openings n
  high : ∀ n, 2 < n → l.held n + (watchedOf binds).count n ≤ w.openings n

structure Kept (p : Proc) (l : Ledger) : Prop extends Exact p l, Room l p.binds p.world where
  idle : ∀ s ∈ p.sockets, s.shadowfd = s.fd ∧ s.comfds = []

variable {K : Kernel} {p q : Proc} {l : Ledger} {w w' : World} {binds : List DsuSocket} {r r' : DsuSocket} {n c : Int}

theorem isStd_of_le (h : 0 ≤ n) (hle : n ≤ 2) : isStd n = true := by
  simp only [isStd, Bool.or_eq_true, decide_eq_true_eq]
  omega

/-! ### What the library watches -/

theorem mem_watchedOf {binds : List DsuSocket} (hr : r ∈ binds) (hc : c ∈ r.watched) : c ∈ watchedOf binds :=
  List.mem_flatMap.mpr ⟨r, hr, hc⟩

theorem watchedOf_count (pre post : List DsuSocket) (r : DsuSocket) (n : Int) :
    (watchedOf (pre ++ r :: post)).count n = (watchedOf (pre ++ post)).count n + r.watched.count n := by
  unfold watchedOf
  simp only [List.flatMap_append, List.flatMap_cons, List.count_append]
  omega

theorem watchedOf_update {test : DsuSocket → Bool} {f : DsuSocket → DsuSocket} (hf : ∀ r, (f r).watched = r.watched) :
    watchedOf (dsuSocketsUpdate test f binds) = watchedOf binds := by
  unfold watchedOf
  rw [List.flatMap_def, List.flatMap_def, map_dsuSocketsUpdate hf]

/-- Event calls leave room for what else is open. -/
theorem Changes.watchedOf_count {c c' : List DsuSocket × World} (h : Changes c c') {k : Nat}
    (hk : k + (watchedOf c.1).count n ≤ c.2.openings n) : k + (watchedOf c'.1).count n ≤ c'.2.openings n := by
  refine Changes.invariant (I := fun l w => k + (watchedOf l).count n ≤ w.openings n) (fun l w w' hw hl => ?_)
    (fun pre post r r' w w' he hl => ?_) h hk
  · rw [World.openings_congr hw.fdt]
    exact hl
  · rw [OpenDSU.watchedOf_count] at hl ⊢
    rw [← Nat.add_assoc] at hl ⊢
    exact he.watched_count hl

/-! ### What the program has -/

theorem Ledger.held_eq_zero (h : l n = none) : l.held n = 0 := if_pos h

theorem Ledger.held_eq_one (h : l n ≠ none) : l.held n = 1 := if_neg h

theorem Ledger.held_update (h : l c = none) (u : Use) (n : Int) :
    Ledger.held (Function.update l c (some u)) n = l.held n + [c].count n := by
  unfold Ledger.held
  rw [List.count_singleton]
  by_cases hn : n = c
  · subst hn
    simp [h]
  · simp [hn, Ne.symm hn]

theorem Ledger.held_update_used (h : l c ≠ none) (u : Use) (n : Int) :
    Ledger.held (Function.update l c (some u)) n = l.held n := by
  unfold Ledger.held
  by_cases hn : n = c
  · subst hn
    simp [h]
  · simp [hn]

/-! ### Room -/

theorem Room.le_one (h : Room l binds w) (hn : 2 < n) : (watchedOf binds).count n ≤ 1 :=
  (Nat.le_add_left _ _).trans ((h.high n hn).trans (w.openings_le n))

/-- What the program has, the library does not watch. -/
theorem Room.unwatched (h : Room l binds w) (hn : 2 < n) (hl : l n ≠ none) : n ∉ watchedOf binds := by
  intro hmem
  have hpos := List.count_pos_iff.mpr hmem
  have hhigh := h.high n hn
  have hone := w.openings_le n
  rw [Ledger.held_eq_one hl] at hhigh
  omega

theorem Room.congr {binds' : List DsuSocket} (h : Room l binds w) (hw : watchedOf binds' = watchedOf binds) :
    Room l binds' w :=
  ⟨h.nonneg, h.low, fun n hn => hw ▸ h.high n hn⟩

/-- More is open. -/
theorem Room.mono (h : Room l binds w) (hw : ∀ n, 0 ≤ n → w.openings n ≤ w'.openings n) : Room l binds w' where
  nonneg := h.nonneg
  low n := by
    by_cases hn : l n = none
    · rw [Ledger.held_eq_zero hn]
      exact Nat.zero_le _
    · exact (h.low n).trans (hw n (h.nonneg n hn))
  high n hn := (h.high n hn).trans (hw n (by omega))

theorem Room.same (h : Room l binds w) (hw : w.Same w') : Room l binds w' :=
  h.mono fun n _ => (World.openings_congr hw.fdt n).ge

/-- The program has no use for a number that is not open. -/
theorem Room.free (h : Room l binds w) {kind : Kind} (hw : w.Opens c kind w') : l c = none := by
  have hlow := h.low c
  have hzero : w.openings c = 0 := by simp [World.openings, World.isOpen, hw.free]
  by_contra hne
  rw [hzero, Ledger.held_eq_one hne] at hlow
  omega

theorem Room.opens (h : Room l binds w) {kind : Kind} (hw : w.Opens c kind w') (u : Use) :
    Room (Function.update l c (some u)) binds w' := by
  have hfree := h.free hw
  refine ⟨fun n hn => ?_, fun n => ?_, fun n hn => ?_⟩
  · by_cases hnc : n = c
    · exact hnc ▸ hw.nonneg
    · rw [Function.update_of_ne hnc] at hn
      exact h.nonneg n hn
  · rw [Ledger.held_update hfree, hw.openings]
    exact Nat.add_le_add_right (h.low n) _
  · have hhigh := h.high n hn
    rw [Ledger.held_update hfree, hw.openings]
    omega

/-- What is closed is given up by the program and by the library. -/
theorem Room.closes {l' : Ledger} {binds' : List DsuSocket} (h : Room l binds w) (hw : w.Closes c w')
    (hl : ∀ n, l' n ≠ none → l n ≠ none) (hc : l' c = none)
    (hle : ∀ n, (watchedOf binds').count n ≤ (watchedOf binds).count n)
    (hgone : 2 < c → (watchedOf binds').count c = 0) : Room l' binds' w' := by
  have hheld : ∀ n, l'.held n ≤ l.held n := fun n => by
    by_cases hn : l' n = none
    · rw [Ledger.held_eq_zero hn]
      exact Nat.zero_le _
    · rw [Ledger.held_eq_one hn, Ledger.held_eq_one (hl n hn)]
  refine ⟨fun n hn => h.nonneg n (hl n hn), fun n => ?_, fun n hn => ?_⟩
  · rw [hw.openings]
    split
    · rename_i hnc
      rw [Ledger.held_eq_zero (hnc ▸ hc)]
    · exact (hheld n).trans (h.low n)
  · rw [hw.openings]
    split
    · rename_i hnc
      rw [Ledger.held_eq_zero (hnc ▸ hc), hnc, hgone (hnc ▸ hn)]
    · exact (Nat.add_le_add (hheld n) (hle n)).trans (h.high n hn)

/-- The library gives up the number too. -/
theorem Room.close {binds' : List DsuSocket} (h : Room l binds w) (hw : w.Closes c w')
    (hle : ∀ n, (watchedOf binds').count n ≤ (watchedOf binds).count n)
    (hgone : 2 < c → (watchedOf binds').count c = 0) : Room (l.after K p (.close c)) binds' w' := by
  refine h.closes hw (fun n hn hl => hn ?_) (if_pos (Or.inl rfl)) hle hgone
  simp only [Ledger.after]
  split
  · rfl
  · exact hl

/-- What the library watches is no number of the program. -/
theorem Room.unknown (h : Room l binds w) (hc : isStd c = false) (hmem : c ∈ watchedOf binds) : l c = none := by
  by_contra hne
  have hnonneg := h.nonneg c hne
  by_cases hle : c ≤ 2
  · rw [isStd_of_le hnonneg hle] at hc
    cases hc
  · exact h.unwatched (by omega) hne hmem

/-! ### Event calls -/

theorem Kept.event (h : Kept p l) (he : p.Evolves q)
    (hc : ∀ fd ∈ watchedOf p.binds, isStd fd = true → fd ∉ p.tracked) : Kept q l where
  toExact := h.toExact.congr he.sockets he.changes.entries
  idle := he.sockets ▸ h.idle
  nonneg := h.nonneg
  low n := by
    by_cases hn : l n = none
    · rw [Ledger.held_eq_zero hn]
      exact Nat.zero_le _
    · have hnot : n ≤ 2 → n ∉ watchedOf p.binds := fun hle hmem =>
        hc n hmem (isStd_of_le (h.nonneg n hn) hle) (h.mem_tracked hn)
      have hroom : l.held n + (watchedOf p.binds).count n ≤ p.world.openings n := by
        by_cases hle : n ≤ 2
        · rw [List.count_eq_zero.mpr (hnot hle)]
          exact h.low n
        · exact h.high n (by omega)
      exact (Nat.le_add_right _ _).trans (he.changes.watchedOf_count hroom)
  high n hn := he.changes.watchedOf_count (h.high n hn)

/-! ### Calls on sockets -/

theorem Kept.same (h : Kept p l) (hw : p.world.Same w) : Kept { p with world := w } l where
  toExact := h.toExact.congr rfl rfl
  toRoom := h.toRoom.same hw
  idle := h.idle

theorem Kept.socket (h : Kept p l) (hc : (p.world.allot K .user).1 ≠ 0) :
    Kept (OpenDSU.socket K p).2 (l.after K p .socket) := by
  rcases p.world.allot_cases K .user with ⟨hfd, hw⟩ | ⟨fd, hfd, hw⟩
  · have hsocket : OpenDSU.socket K p = (-1, { p with world := (p.world.allot K .user).2 }) := by
      simp [OpenDSU.socket, hfd]
    simp only [Ledger.after, hsocket, if_true]
    exact h.same hw
  · have hnonneg := hw.nonneg
    have hpos : 0 < fd := by
      rw [hfd] at hc
      omega
    have hsocket : OpenDSU.socket K p = (fd, { p with
        world := (p.world.allot K .user).2
        sockets := p.sockets ++ [{ dsuSocketListInit with shadowfd := fd, fd := fd }] }) := by
      simp [OpenDSU.socket, hfd, hpos, dsuSocketsAdd]
    have hfree : ∀ u, l fd ≠ some u := by simp [h.free hw]
    have hne : fd ≠ -1 := by omega
    simp only [Ledger.after, hsocket, if_neg hne]
    exact ⟨h.toExact.opened (s := { dsuSocketListInit with shadowfd := fd, fd := fd }) hfree rfl rfl rfl,
      h.toRoom.opens hw _, List.forall_mem_append.mpr ⟨h.idle, by simp [dsuSocketListInit]⟩⟩

theorem Kept.accept (h : Kept p l) (sockfd : Int) :
    Kept (OpenDSU.accept K p sockfd).2 (l.after K p (.accept sockfd)) := by
  have hcases := fun kind => p.world.accept_cases K (dsuShadowfd p.binds sockfd) kind
  simp only [Ledger.after]
  unfold OpenDSU.accept
  simp only
  generalize hsession : p.world.accept K (dsuShadowfd p.binds sockfd) _ = session
  have hcases := hsession ▸ hcases _
  rcases hcases with ⟨hfd, hw⟩ | ⟨c, hfd, hw⟩
  · simp only [hfd, if_true]
    exact h.same hw
  · have hne : c ≠ -1 := by
      have := hw.nonneg
      omega
    have hfree := h.free hw
    simp only [hfd, if_neg hne]
    cases hfind : dsuSocketsSearchFd p.binds sockfd with
    | none =>
      have hnot : l sockfd ≠ some .bound := fun hb => by
        obtain ⟨r, hr, he⟩ := h.bound_iff.mpr hb
        exact fd_ne_of_search_none hfind r hr he
      have hmono : ∀ n, 0 ≤ n → p.world.openings n ≤ session.2.openings n := fun n _ => by
        rw [hw.openings]
        exact Nat.le_add_right _ _
      rw [if_neg hnot, Function.update_eq_self_iff.mpr hfree.symm, dsuSocketsUpdate_of_find_none hfind]
      exact ⟨h.toExact.congr rfl rfl, h.toRoom.mono hmono, h.idle⟩
    | some r =>
      obtain ⟨hr, rfl⟩ := mem_of_search_fd hfind
      obtain ⟨pre, post, hold, hnew⟩ := dsuSocketsUpdate_of_find hfind (dsuSocketAddFds · c .nonInternal)
      rw [if_pos (h.bound_iff.mp ⟨r, hr, rfl⟩)]
      exact ⟨h.toExact.accepted (by simp [hfree]) rfl hold hnew,
        (h.toRoom.opens hw _).congr (watchedOf_update fun _ => rfl), h.idle⟩

/-! ### `bind` -/

theorem dsuReadFd_openings (w : World) (fd recvfd port : Int) (kind : Kind) (n : Int) :
    w.openings n ≤ (dsuReadFd K w fd recvfd port kind).2.2.openings n := by
  rcases dsuReadFd_cases K w fd recvfd port kind with ⟨-, hw⟩ | hw
  · exact (World.openings_congr hw.fdt n).ge
  · rw [hw.openings]
    exact Nat.le_add_right _ _

/-- The exchange closes the socket that it is made on. -/
theorem dsuInheritFd_openings {s : DsuSocket} (hn : n ≠ s.comfd) :
    w.openings n ≤ (dsuInheritFd K s w).2.2.openings n := by
  rw [dsuInheritFd_eq]
  split
  · simp only
    have hfirst := dsuReadFd_openings (K := K) w.tick s.comfd s.shadowfd 0 .shadow n
    generalize dsuReadFd K w.tick s.comfd s.shadowfd 0 .shadow = a at hfirst ⊢
    have hsecond := dsuReadFd_openings (K := K) a.2.2 s.comfd 0 a.2.1 .com n
    generalize dsuReadFd K a.2.2 s.comfd 0 a.2.1 .com = b at hsecond ⊢
    rw [(World.closes_close b.2.2 K s.comfd).openings, if_neg hn]
    exact hfirst.trans hsecond
  · exact (World.openings_congr w.same_tick.fdt n).ge

/-- `bind` closes no descriptor that was open before. -/
theorem bind_openings (sockfd : Int) (port : Nat) (hn : 0 ≤ n) :
    p.world.openings n ≤ (OpenDSU.bind K p sockfd port).2.world.openings n := by
  rcases bind_cases K p sockfd port with ⟨-, hq⟩ | ⟨s, -, hq⟩
  · rw [hq]
  · have hallot : p.world.openings n ≤ (p.world.allot K .com).2.tick.openings n ∧
        (p.world.openings n = 0 ∨ n ≠ (p.world.allot K .com).1) := by
      rcases p.world.allot_cases K .com with ⟨hc, hw⟩ | ⟨c, hc, hw⟩
      · exact ⟨(World.openings_congr (hw.trans (World.same_tick _)).fdt n).ge, Or.inr (by omega)⟩
      · refine ⟨?_, ?_⟩
        · rw [(hw.same (World.same_tick _)).openings]
          exact Nat.le_add_right _ _
        · by_cases hnc : n = c
          · exact Or.inl (by simp [hnc, World.openings, World.isOpen, hw.free])
          · exact Or.inr (by rw [hc]; exact hnc)
    obtain ⟨hle, hne⟩ := hallot
    rcases hq with ⟨-, hq⟩ | ⟨-, hq⟩
    · rw [World.openings_congr hq.world.fdt]
      exact hle
    · rw [World.openings_congr hq.world.fdt]
      rcases hne with hzero | hne
      · rw [hzero]
        exact Nat.zero_le _
      · exact hle.trans (dsuInheritFd_openings hne)

theorem Kept.bound {s₀ s : DsuSocket} (h : Kept p l) (hb : Bound p s w q)
    (hs : dsuSocketsSearchFd p.sockets s₀.fd = some s₀) (hfd : s.fd = s₀.fd) (hfds : s.fds = s₀.fds)
    (hcomfds : s.comfds = []) (ns : List Int) (hg : Grants p.world (ns ++ [s.comfd]) w)
    (hmono : ∀ n, 0 ≤ n → p.world.openings n ≤ q.world.openings n) :
    Kept q (Function.update l s₀.fd (some .bound)) := by
  obtain ⟨s', hbinds, hfd', -, -, hcomfd, hfds', hcomfds', hmon, -⟩ := hb.binds
  obtain ⟨pre, post, hold, hremove⟩ := dsuSocketsRemoveFd_of_find hs
  have hsockets : q.sockets = pre ++ post := by rw [hb.sockets, hfd, hremove]
  have hmem : s₀ ∈ p.sockets := by simp [hold]
  have hused : l s₀.fd ≠ none := by simp [h.socket_iff.mp ⟨s₀, hmem, rfl⟩]
  have hwatched : s'.watched = [s.comfd] := by simp [DsuSocket.watched, hmon, hcomfd, hcomfds', hcomfds]
  have hroom := h.toRoom.mono hmono
  refine ⟨h.toExact.moved hold hsockets hbinds (hfd'.trans hfd) (hfds'.trans hfds), ⟨fun n hn => ?_, fun n => ?_,
    fun n hn => ?_⟩, fun x hx => h.idle x ?_⟩
  · by_cases hns : n = s₀.fd
    · exact hns ▸ h.nonneg s₀.fd hused
    · rw [Function.update_of_ne hns] at hn
      exact h.nonneg n hn
  · rw [Ledger.held_update_used hused]
    exact hroom.low n
  · have hhigh := h.high n hn
    have hgrant := hg n (by omega)
    rw [Ledger.held_update_used hused, World.openings_congr hb.world.fdt, hbinds]
    simp only [watchedOf, List.flatMap_append, List.flatMap_singleton, List.count_append, hwatched] at hhigh hgrant ⊢
    omega
  · rw [hsockets] at hx
    exact mem_of_split hold hx

theorem Kept.bind (h : Kept p l) (sockfd : Int) (port : Nat) :
    Kept (OpenDSU.bind K p sockfd port).2 (l.after K p (.bind sockfd port)) := by
  have hcom : Grants p.world [(p.world.allot K .com).1] (p.world.allot K .com).2.tick :=
    (grants_allot (K := K) .com).trans (grants_of_same (World.same_tick _))
  have hmono := fun n hn => bind_openings (K := K) (p := p) (n := n) sockfd port hn
  simp only [Ledger.after]
  rcases bind_cases K p sockfd port with ⟨hnone, hq⟩ | ⟨s, hs, hq⟩
  · have hnot : l sockfd ≠ some .socket := fun hl => by
      obtain ⟨s, hs, he⟩ := h.socket_iff.mpr hl
      exact fd_ne_of_search_none hnone s hs he
    rw [hq, if_neg hnot]
    exact h
  · obtain ⟨hmem, rfl⟩ := mem_of_search_fd hs
    have hsocket : l s.fd = some .socket := h.socket_iff.mp ⟨s, hmem, rfl⟩
    rw [if_pos hsocket]
    rcases hq with ⟨-, hq⟩ | ⟨-, hq⟩
    · exact h.bound hq hs rfl rfl (h.idle s hmem).2 [] hcom hmono
    · obtain ⟨hfd, hcomfds, hg⟩ := dsuInheritFd_grants (K := K)
        (s := { s with port := port, comfd := (p.world.allot K .com).1 }) (h.idle s hmem).1 hcom
      have hfds : (dsuInheritFd K { s with port := port, comfd := (p.world.allot K .com).1 }
          (p.world.allot K .com).2.tick).2.1.fds = s.fds := by
        rw [dsuInheritFd_eq]
        split <;> rfl
      exact h.bound hq hs hfd hfds (hcomfds.trans (h.idle s hmem).2) _ hg hmono


/-! ### `close` -/

/-- A write to the record that watches the number, which gives it up. -/
theorem Kept.closeWatched {test : DsuSocket → Bool} {f : DsuSocket → DsuSocket} (h : Kept p l)
    (hw : p.world.Closes c w) (hc : isStd c = false) (hfind : p.binds.find? test = some r)
    (hf : ∀ r, (f r).entry = r.entry) (hle : ∀ n, (f r).watched.count n ≤ r.watched.count n)
    (hlt : (f r).watched.count c < r.watched.count c) :
    Kept { p with binds := dsuSocketsUpdate test f p.binds, world := w } (l.after K p (.close c)) := by
  obtain ⟨pre, post, hold, hnew⟩ := dsuSocketsUpdate_of_find hfind f
  have hmem : c ∈ watchedOf p.binds :=
    mem_watchedOf (List.mem_of_find?_eq_some hfind) (List.count_pos_iff.mp (by omega))
  have hone := fun hpos : 2 < c => h.le_one hpos
  rw [hold, watchedOf_count] at hone
  refine ⟨?_, h.toRoom.close hw (fun n => ?_) (fun hpos => ?_), h.idle⟩
  · rw [h.toExact.close_unknown (h.toRoom.unknown hc hmem)]
    exact h.toExact.congr rfl (entries_update hf)
  · simp only [hnew]
    rw [hold, watchedOf_count, watchedOf_count]
    exact Nat.add_le_add_left (hle n) _
  · have := hone hpos
    simp only [hnew, watchedOf_count]
    omega

/-- No record watches a number that is in use. -/
theorem Kept.count_of_used (h : Kept p l) {use : Use} (hused : l c = some use) (hpos : 2 < c) :
    (watchedOf p.binds).count c = 0 :=
  List.count_eq_zero.mpr (h.toRoom.unwatched hpos (by simp [hused]))

theorem Kept.closeStd (h : Kept p l) (hstd : isStd c = true) (hc : c ∉ p.tracked) :
    Kept (p.dsuClose K c) (l.after K p (.close c)) := by
  have hunknown : l c = none := by
    by_contra hne
    exact hc (h.mem_tracked hne)
  refine ⟨?_, h.toRoom.close (p.world.closes_close K c) (fun _ => Nat.le_refl _) fun hpos => ?_, h.idle⟩
  · rw [h.toExact.close_unknown hunknown]
    exact h.toExact.congr rfl rfl
  · simp only [isStd, Bool.or_eq_true, decide_eq_true_eq] at hstd
    omega

theorem Kept.closeSocket {s : DsuSocket} (h : Kept p l) (hfind : dsuSocketsSearchFd p.sockets c = some s) :
    Kept ({ p with sockets := dsuSocketsRemoveFd p.sockets c }.dsuClose K c) (l.after K p (.close c)) := by
  obtain ⟨pre, post, hold, hremove⟩ := dsuSocketsRemoveFd_of_find hfind
  obtain ⟨hmem, rfl⟩ := mem_of_search_fd hfind
  have hsocket : l s.fd = some .socket := h.socket_iff.mp ⟨s, hmem, rfl⟩
  exact ⟨h.toExact.closeSocket hold hremove rfl,
    h.toRoom.close (p.world.closes_close K s.fd) (fun _ => Nat.le_refl _) (h.count_of_used hsocket),
    fun x hx => h.idle x (mem_of_split hold (hremove ▸ hx))⟩

theorem Kept.closeBound (h : Kept p l) (hfind : dsuSocketsSearchFd p.binds c = some r) :
    Kept ({ p with
        binds := dsuSocketsRemoveFd p.binds c
        orphans := p.orphans ++ r.connections p.world }.dsuClose K c) (l.after K p (.close c)) := by
  obtain ⟨pre, post, hold, hremove⟩ := dsuSocketsRemoveFd_of_find hfind
  obtain ⟨hmem, rfl⟩ := mem_of_search_fd hfind
  have hbound : l r.fd = some .bound := h.bound_iff.mp ⟨r, hmem, rfl⟩
  have hle : ∀ n, (watchedOf (dsuSocketsRemoveFd p.binds r.fd)).count n ≤ (watchedOf p.binds).count n := fun n => by
    rw [hremove, hold, watchedOf_count]
    exact Nat.le_add_right _ _
  exact ⟨h.toExact.closeBound hold rfl hremove,
    h.toRoom.close (p.world.closes_close K r.fd) hle fun hpos =>
      Nat.le_zero.mp ((hle _).trans (h.count_of_used hbound hpos).le),
    h.idle⟩

theorem Kept.closeClient (h : Kept p l) (hfind : dsuSocketsSearchFds p.binds c .nonInternal = some r) :
    Kept ({ p with
        binds := dsuSocketsUpdate (·.listens c .nonInternal) (dsuSocketRemoveFds · c .nonInternal) p.binds
      }.dsuClose K c) (l.after K p (.close c)) := by
  obtain ⟨pre, post, hold, hnew⟩ := dsuSocketsUpdate_of_find hfind (dsuSocketRemoveFds · c .nonInternal)
  have hlistens := List.find?_some hfind
  simp only [DsuSocket.listens, List.contains_eq_mem, decide_eq_true_eq] at hlistens
  have hconn := (h.mem_fds_iff (List.mem_of_find?_eq_some hfind)).mp hlistens
  have hwatched : watchedOf (dsuSocketsUpdate (·.listens c .nonInternal) (dsuSocketRemoveFds · c .nonInternal)
      p.binds) = watchedOf p.binds := watchedOf_update fun _ => rfl
  exact ⟨h.toExact.closeConnection hold hlistens rfl hnew,
    (h.toRoom.close (p.world.closes_close K c) (fun _ => Nat.le_refl _) (h.count_of_used hconn)).congr hwatched,
    h.idle⟩

/-- A number that is in none of the lists. -/
theorem Kept.closeUnlisted (h : Kept p l) (hsockets : dsuSocketsSearchFd p.sockets c = none)
    (hbinds : dsuSocketsSearchFd p.binds c = none) (hmonitor : dsuSocketsSearchFds p.binds c .monitor = none)
    (hinternal : dsuSocketsSearchFds p.binds c .internal = none)
    (hclient : dsuSocketsSearchFds p.binds c .nonInternal = none) :
    Kept (p.dsuClose K c) (l.after K p (.close c)) := by
  refine ⟨?_, h.toRoom.close (p.world.closes_close K c) (fun _ => Nat.le_refl _) fun _ => ?_, h.idle⟩
  · rw [h.toExact.close_unknown (h.toExact.unlisted hsockets hbinds hclient)]
    exact h.toExact.congr rfl rfl
  · refine List.count_eq_zero.mpr fun hmem => ?_
    obtain ⟨r, hr, hmem⟩ := List.mem_flatMap.mp hmem
    exact not_mem_watched hmonitor hinternal r hr hmem

theorem Kept.close (h : Kept p l) (hc : isStd c = true → c ∉ p.tracked) :
    Kept (OpenDSU.close K p c) (l.after K p (.close c)) := by
  have hw := p.world.closes_close K c
  unfold OpenDSU.close
  split
  · rename_i hstd
    exact h.closeStd hstd (hc hstd)
  rename_i hstd
  have hstd : isStd c = false := by simpa [isStd] using hstd
  split
  · rename_i hfind
    obtain ⟨s, hfind⟩ := Option.isSome_iff_exists.mp hfind
    exact h.closeSocket hfind
  rename_i hsockets
  split
  · rename_i r hfind
    exact h.closeBound hfind
  rename_i hbinds
  split
  · rename_i hfind
    obtain ⟨r, hfind⟩ := Option.isSome_iff_exists.mp hfind
    have hlistens := List.find?_some hfind
    simp only [DsuSocket.listens, Bool.and_eq_true, beq_iff_eq] at hlistens
    refine h.closeWatched hw hstd hfind (fun _ => rfl) (fun n => ?_) ?_ <;> rw [watched_count, watched_count]
    · simp
    · simp [hlistens]
  rename_i hmonitor
  split
  · rename_i hfind
    obtain ⟨r, hfind⟩ := Option.isSome_iff_exists.mp hfind
    have hlistens := List.find?_some hfind
    simp only [DsuSocket.listens, List.contains_eq_mem, decide_eq_true_eq] at hlistens
    have hpos := List.count_pos_iff.mpr hlistens
    refine h.closeWatched hw hstd hfind (fun _ => rfl) (fun n => ?_) ?_ <;> rw [watched_count, watched_count]
    · exact Nat.add_le_add_left (List.erase_sublist.count_le n) _
    · refine Nat.add_lt_add_left ?_ _
      simp only [dsuSocketRemoveFds, List.count_erase_self]
      omega
  rename_i hinternal
  split
  · rename_i hfind
    obtain ⟨r, hfind⟩ := Option.isSome_iff_exists.mp hfind
    exact h.closeClient hfind
  · rename_i hclient
    simp only [Bool.not_eq_true, Option.isSome_eq_false_iff,
      Option.isNone_iff_eq_none] at hsockets hmonitor hinternal hclient
    exact h.closeUnlisted hsockets hbinds hmonitor hinternal hclient

/-! ### Runs -/

theorem Kept.epollCtl (h : Kept p l) (epfd : Int) (op : EpollOp) (fd : Int) (event : EpollEvent) :
    Kept (OpenDSU.epollCtl K p epfd op fd event).2 l := by
  have hmono : ∀ d n, 0 ≤ n → p.world.openings n ≤ (p.world.epollCtl K epfd op d event false).2.openings n :=
    fun d n _ => (World.openings_congr (World.epollCtl_fdt p.world K epfd op d event false) n).ge
  unfold OpenDSU.epollCtl
  split
  · exact ⟨h.toExact.congr rfl rfl, h.toRoom.mono (hmono fd), h.idle⟩
  · exact ⟨h.toExact.congr rfl (entries_update fun _ => rfl),
      (h.toRoom.mono (hmono _)).congr (watchedOf_update fun _ => rfl), h.idle⟩

theorem step_kept {call : Call} (h : Kept p l) (hc : call.Clear K p) (hs : p.step K call = some q) :
    Kept q (l.after K p call) := by
  cases step_takes hs with
  | socket => exact h.socket hc
  | bind sockfd port => exact h.bind sockfd port
  | accept sockfd => exact h.accept sockfd
  | close sockfd => exact h.close hc
  | epollCtl epfd op fd event => exact h.epollCtl epfd op fd event
  | event hwaits he =>
    cases call with
    | select => exact h.event he hc
    | ppoll => exact h.event he hc
    | epollWait => exact h.event he hc
    | socket => cases hwaits
    | bind => cases hwaits
    | accept => cases hwaits
    | close => cases hwaits
    | epollCtl => cases hwaits

/-- A `socket` or `close` that is not clear breaks the lists at once. -/
theorem clear_of_exact {call : Call} (hcall : call.waits = false) (h : Kept p l) (hs : p.step K call = some q)
    (hq : Exact q (l.after K p call)) : call.Clear K p := by
  cases step_takes hs with
  | socket =>
    intro hzero
    rcases p.world.allot_cases K .user with ⟨hfd, -⟩ | ⟨fd, hfd, hw⟩
    · rw [hfd] at hzero
      cases hzero
    · have hsocket : OpenDSU.socket K p = (0, { p with world := (p.world.allot K .user).2 }) := by
        simp [OpenDSU.socket, hzero]
      have huses : l.after K p .socket 0 = some .socket := by simp [Ledger.after, hsocket]
      obtain ⟨s, hmem, he⟩ := hq.socket_iff.mpr huses
      rw [hsocket] at hmem
      have hold := h.socket_iff.mp ⟨s, hmem, he⟩
      rw [h.free (hfd.symm.trans hzero ▸ hw)] at hold
      cases hold
  | close sockfd =>
    intro hstd hmem
    have hclose : OpenDSU.close K p sockfd = p.dsuClose K sockfd := if_pos hstd
    rw [hclose] at hq
    exact hq.known hmem (if_pos (Or.inl rfl))
  | bind => trivial
  | accept => trivial
  | epollCtl => trivial
  | event hwaits =>
    rw [hcall] at hwaits
    cases hwaits

theorem Proc.Started.kept (h : p.Started) : Kept p fun _ => none where
  sockets n := by simp [h.sockets]
  binds n := by simp [h.binds]
  unbound := by simp [h.sockets]
  fds := by simp [h.binds]
  connected := by simp
  nonneg := by simp
  low n := by
    rw [Ledger.held_eq_zero rfl]
    exact Nat.zero_le _
  high n _ := by
    rw [Ledger.held_eq_zero rfl, h.binds]
    exact Nat.zero_le _
  idle := by simp [h.sockets]

/-- In every run whose calls are clear the lists are exact in every state. -/
theorem tracking_exact {a : Account} (h : (accountMachine K).init a) {calls : List Call}
    (hc : (accountMachine K).Steps (fun a call => call.Clear K a.proc) a calls) :
    (accountMachine K).Throughout (fun a => Exact a.proc a.uses) a calls := by
  have hkept : Kept a.proc a.uses := h.2 ▸ h.1.kept
  refine Machine.Steps.throughout (I := fun a : Account => Kept a.proc a.uses) (fun _ hk => hk.toExact)
    (fun a call b hk hc hs => ?_) hkept hc
  obtain ⟨q, hq, rfl⟩ := Option.map_eq_some_iff.mp hs
  exact step_kept hk hc hq

instance (K : Kernel) (p : Proc) : (call : Call) → Decidable (call.Clear K p)
  | .socket => inferInstanceAs (Decidable (_ ≠ _))
  | .close _ => inferInstanceAs (Decidable (_ → _))
  | .select .. => inferInstanceAs (Decidable (∀ _ ∈ _, _ → _))
  | .ppoll .. => inferInstanceAs (Decidable (∀ _ ∈ _, _ → _))
  | .epollWait .. => inferInstanceAs (Decidable (∀ _ ∈ _, _ → _))
  | .bind .. => .isTrue trivial
  | .accept _ => .isTrue trivial
  | .epollCtl .. => .isTrue trivial

/-- A process that has just been loaded, with nothing to track. -/
def Account.loaded : Account where
  proc := .loaded
  uses := fun _ => none

theorem tracking_exact_on_server : ∃ a, (accountMachine soloKernel).run .loaded
      [.socket, .bind 3 8080, .accept 3, .accept 3, .ppoll [] (some 0), .close 5, .socket] = some a ∧
    a.proc.sockets.map (·.fd) = [7] ∧ a.proc.binds.map DsuSocket.entry = [(3, [6])] ∧
    (accountMachine soloKernel).Throughout (fun a => Exact a.proc a.uses) .loaded
      [.socket, .bind 3 8080, .accept 3, .accept 3, .ppoll [] (some 0), .close 5, .socket] :=
  ⟨_, rfl, rfl, rfl, tracking_exact ⟨Proc.started_loaded, rfl⟩ (by decide)⟩

/-- A kernel that hands out 0 and 1 where they are not open. -/
def lowKernel : Kernel :=
  { soloKernel with number := fun w => some (if !w.isOpen 0 then 0 else if !w.isOpen 1 then 1 else w.files) }

/-- A process that has closed its standard input gets a socket that is not tracked. One that has closed its
    standard output gets a socket whose record stays when it is closed, also when the number is handed out anew; or a
    connection that stays with the record of its socket. -/
theorem tracking_not_exact : ∃ a b c d, (accountMachine lowKernel).init .loaded ∧
    (accountMachine lowKernel).run .loaded [.close 0, .socket] = some a ∧
    a.uses 0 = some .socket ∧ a.proc.world.isOpen 0 = true ∧ a.proc.sockets = [] ∧ ¬Exact a.proc a.uses ∧
    (accountMachine lowKernel).run .loaded [.close 1, .socket, .close 1] = some b ∧
    b.uses 1 = none ∧ b.proc.world.isOpen 1 = false ∧ b.proc.sockets.map (·.fd) = [1] ∧ ¬Exact b.proc b.uses ∧
    (accountMachine lowKernel).step b .socket = some c ∧
    c.uses 1 = some .socket ∧ c.proc.sockets.map (·.fd) = [1, 1] ∧ ¬Exact c.proc c.uses ∧
    (accountMachine lowKernel).run .loaded [.socket, .bind 3 8080, .close 1, .accept 3, .close 1] = some d ∧
    d.uses 1 = none ∧ d.proc.binds.map DsuSocket.entry = [(3, [1])] ∧ ¬Exact d.proc d.uses := by
  refine ⟨_, _, _, _, ⟨Proc.started_loaded, rfl⟩, rfl, rfl, rfl, rfl, fun h => ?_, rfl, rfl, rfl, rfl, fun h => ?_,
    rfl, rfl, rfl, fun h => ?_, rfl, rfl, rfl, fun h => ?_⟩
  · exact absurd (h.sockets 0) (by decide)
  · exact absurd (h.sockets 1) (by decide)
  · exact absurd (h.sockets 1) (by decide)
  · have hcount := h.fds _ (List.mem_cons_self ..) 1
    exact absurd hcount (by decide)

end OpenDSU
