import OpenDSU.Theorems.Names

/-! The descriptor numbers that the records hold.

As long as a record holds a number, it is open and no other record holds it: the kernel hands out numbers that
are free, and the library gives a number up when it closes it. -/

open Relation

namespace OpenDSU

/-- The numbers that a record of `binds` holds: of its socket and of its shadow, of the `comfd` while it
    monitors, and of the connections of other versions. -/
def DsuSocket.numbers (r : DsuSocket) : List Int :=
  r.fd :: ((if r.shadowfd = r.fd then [] else [r.shadowfd]) ++ r.watched)

def numbersOf (sockets binds : List DsuSocket) : List Int :=
  sockets.map (·.fd) ++ binds.flatMap DsuSocket.numbers

/-- 1 for a number that is open. -/
def World.openings (w : World) (n : Int) : Nat := if w.isOpen n then 1 else 0

/-- The records hold each number at most once, and only while it is open. What is not a number counts for
    nothing, nor does 0, which `dsu_read_fd` leaves for a descriptor that it has not received. -/
structure Distinct (sockets binds : List DsuSocket) (w : World) : Prop where
  count : ∀ n, 0 < n → (numbersOf sockets binds).count n ≤ w.openings n
  positive : ∀ r ∈ sockets ++ binds, 0 < r.fd
  unbound : ∀ r ∈ sockets, r.shadowfd = r.fd ∧ r.comfds = []

variable {K : Kernel} {p q : Proc} {w w' w'' : World} {sockets binds : List DsuSocket} {r r' : DsuSocket}

/-! ### Open numbers -/

theorem World.isOpen_of_openings {n : Int} (h : 0 < w.openings n) : w.isOpen n = true := by
  by_contra hclosed
  rw [openings, if_neg hclosed] at h
  cases h

theorem World.openings_congr (h : w'.fdt = w.fdt) (n : Int) : w'.openings n = w.openings n := by
  unfold openings isOpen
  rw [h]

theorem World.Opens.openings {c : Int} {kind : Kind} (h : w.Opens c kind w') (n : Int) :
    w'.openings n = w.openings n + [c].count n := by
  unfold World.openings World.isOpen
  rw [h.fdt, List.count_singleton]
  by_cases hn : n = c
  · simp [hn, h.free]
  · simp [hn, Ne.symm hn]

theorem World.Closes.openings {c : Int} (h : w.Closes c w') (n : Int) :
    w'.openings n = if n = c then 0 else w.openings n := by
  unfold World.openings World.isOpen
  rw [h.fdt]
  by_cases hn : n = c <;> simp [hn]

theorem World.openings_le (w : World) (n : Int) : w.openings n ≤ 1 := by
  unfold openings
  split <;> omega

/-! ### Event calls -/

theorem numbers_count (r : DsuSocket) (n : Int) : r.numbers.count n =
    [r.fd].count n + (if r.shadowfd = r.fd then 0 else [r.shadowfd].count n) +
      ((if r.monitoring then [r.comfd].count n else 0) + r.comfds.count n) := by
  unfold DsuSocket.numbers DsuSocket.watched
  rw [← List.singleton_append, List.count_append, List.count_append, List.count_append]
  split <;> split <;> simp [Nat.add_assoc]

theorem numbersOf_count (pre post : List DsuSocket) (r : DsuSocket) (n : Int) :
    (numbersOf sockets (pre ++ r :: post)).count n = (numbersOf sockets (pre ++ post)).count n + r.numbers.count n := by
  unfold numbersOf
  simp only [List.flatMap_append, List.flatMap_cons, List.count_append]
  omega

theorem numbersOf_count_socket (pre post : List DsuSocket) (s : DsuSocket) (n : Int) :
    (numbersOf (pre ++ s :: post) binds).count n = (numbersOf (pre ++ post) binds).count n + [s.fd].count n := by
  unfold numbersOf
  simp only [List.map_append, List.map_cons, List.count_append]
  rw [← List.singleton_append, List.count_append]
  omega

theorem watched_count (r : DsuSocket) (n : Int) :
    r.watched.count n = (if r.monitoring then [r.comfd].count n else 0) + r.comfds.count n := by
  unfold DsuSocket.watched
  rw [List.count_append]
  split <;> simp

theorem Alike.watched (h : Alike r r') : r'.watched = r.watched := by
  unfold DsuSocket.watched
  rw [h.monitoring, h.comfd, h.comfds]

/-- An effect on a record leaves room for what else is open. -/
theorem Effect.watched_count (h : Effect (r, w) (r', w')) {n : Int} {k : Nat}
    (hk : k + r.watched.count n ≤ w.openings n) : k + r'.watched.count n ≤ w'.openings n := by
  have hone := w.openings_le n
  cases h with
  | quiet hr hw =>
    rw [World.openings_congr hw.fdt, hr.watched]
    exact hk
  | quit hm hr hw =>
    rw [hw.openings, hr.watched]
    rw [OpenDSU.watched_count] at hk ⊢
    simp only [hm, if_true, Bool.false_eq_true, if_false] at hk ⊢
    by_cases hn : n = r.comfd
    · have hself : [r.comfd].count n = 1 := by rw [hn, List.count_singleton_self]
      rw [if_pos hn]
      omega
    · rw [if_neg hn]
      omega
  | accepted c hr hw =>
    rw [hw.openings, hr.watched]
    rw [OpenDSU.watched_count] at hk ⊢
    simp only [List.count_append]
    omega
  | closed c hc hr hw =>
    rw [hw.openings, hr.watched]
    rw [OpenDSU.watched_count] at hk ⊢
    by_cases hn : n = c
    · have hpos := List.count_pos_iff.mpr hc
      subst hn
      simp only [List.count_erase_self, if_true]
      omega
    · simp only [List.count_erase_of_ne hn, if_neg hn]
      exact hk
  | locked hr hw =>
    rw [World.openings_congr hw.fdt, hr.watched]
    exact hk
  | unlocked _ hr hw =>
    rw [World.openings_congr hw.fdt, hr.watched]
    exact hk

/-- An effect on a record leaves room for the numbers of the others. -/
theorem Effect.count (h : Effect (r, w) (r', w')) {n : Int} {k : Nat} (hk : k + r.numbers.count n ≤ w.openings n) :
    k + r'.numbers.count n ≤ w'.openings n := by
  obtain ⟨hfd, hshadowfd⟩ : r'.fd = r.fd ∧ r'.shadowfd = r.shadowfd := Prod.ext_iff.mp h.names
  unfold DsuSocket.numbers at hk ⊢
  rw [hfd, hshadowfd, ← List.cons_append, List.count_append, ← Nat.add_assoc]
  rw [← List.cons_append, List.count_append, ← Nat.add_assoc] at hk
  exact h.watched_count hk

theorem Distinct.effect {pre post : List DsuSocket} (he : Effect (r, w) (r', w'))
    (h : Distinct sockets (pre ++ r :: post) w) : Distinct sockets (pre ++ r' :: post) w' where
  count n hn := by
    rw [numbersOf_count]
    refine he.count ?_
    rw [← numbersOf_count]
    exact h.count n hn
  positive x hx := by
    have hfd : x = r' → 0 < x.fd := by
      rintro rfl
      have hnames : x.fd = r.fd := (Prod.ext_iff.mp he.names).1
      rw [hnames]
      exact h.positive r (by simp)
    simp only [List.mem_append, List.mem_cons] at hx
    rcases hx with hx | hx | hx | hx
    · exact h.positive x (by simp [hx])
    · exact h.positive x (by simp [hx])
    · exact hfd hx
    · exact h.positive x (by simp [hx])
  unbound := h.unbound

theorem Changes.distinct {c c' : List DsuSocket × World} (h : Changes c c') (hd : Distinct sockets c.1 c.2) :
    Distinct sockets c'.1 c'.2 := by
  refine Changes.invariant (I := Distinct sockets) (fun l w w' hw hd => ?_) (fun _ _ _ _ _ _ he hd => hd.effect he) h hd
  refine ⟨fun n hn => ?_, hd.positive, hd.unbound⟩
  rw [World.openings_congr hw.fdt]
  exact hd.count n hn

/-! ### New numbers -/

/-- The numbers are opened between two states of the kernel's side, and none is closed. -/
def Grants (w : World) (ns : List Int) (w' : World) : Prop := ∀ n, 0 < n → w.openings n + ns.count n ≤ w'.openings n

theorem grants_of_same (h : w.Same w') : Grants w [] w' := fun n _ => (World.openings_congr h.fdt n).ge

theorem grants_of_opens {c : Int} {kind : Kind} (h : w.Opens c kind w') : Grants w [c] w' := fun n _ => (h.openings n).ge

/-- What is not a number may be counted in. -/
theorem grants_nonpos {c : Int} (hc : c ≤ 0) (h : w.Same w') : Grants w [c] w' := by
  intro n hn
  rw [World.openings_congr h.fdt, List.count_singleton, if_neg (by simp; omega)]
  exact Nat.le_refl _

theorem Grants.trans {ns ms : List Int} (h : Grants w ns w') (h' : Grants w' ms w'') : Grants w (ns ++ ms) w'' := by
  intro n hn
  have := h n hn
  have := h' n hn
  rw [List.count_append]
  omega

/-- A number that was opened in between is closed. -/
theorem Grants.close {c : Int} {ns : List Int} (h : Grants w (c :: ns) w') (hc : w'.Closes c w'') : Grants w ns w'' := by
  intro n hn
  have hopen := h n hn
  have hone := w'.openings_le n
  rw [hc.openings]
  by_cases hnc : n = c
  · rw [hnc, List.count_cons_self] at hopen
    rw [hnc] at hone ⊢
    simp only [if_true]
    omega
  · rw [List.count_cons_of_ne (Ne.symm hnc)] at hopen
    rw [if_neg hnc]
    exact hopen

theorem grants_allot (kind : Kind) : Grants w [(w.allot K kind).1] (w.allot K kind).2 := by
  rcases w.allot_cases K kind with ⟨hc, hw⟩ | ⟨c, hc, hw⟩ <;> rw [hc]
  · exact grants_nonpos (by decide) hw
  · exact grants_of_opens hw

theorem grants_accept (fd : Int) (kind : Kind) : Grants w [(w.accept K fd kind).1] (w.accept K fd kind).2 := by
  rcases w.accept_cases K fd kind with ⟨hc, hw⟩ | ⟨c, hc, hw⟩ <;> rw [hc]
  · exact grants_nonpos (by decide) hw
  · exact grants_of_opens hw

theorem dsuReadFd_grants (w : World) (fd recvfd port : Int) (kind : Kind) :
    ((dsuReadFd K w fd recvfd port kind).1 = recvfd ∧ w.Same (dsuReadFd K w fd recvfd port kind).2.2) ∨
    Grants w [(dsuReadFd K w fd recvfd port kind).1] (dsuReadFd K w fd recvfd port kind).2.2 := by
  rcases dsuReadFd_cases K w fd recvfd port kind with ⟨hold | hnone, hw⟩ | hw
  · exact Or.inl ⟨hold, hw⟩
  · exact Or.inr (grants_nonpos (by rw [hnone]; decide) hw)
  · exact Or.inr (grants_of_opens hw)

/-! ### Calls of the program -/

/-- The records hold numbers that were opened, besides those they held. -/
theorem Distinct.grants {sockets' binds' : List DsuSocket} {ns : List Int} (h : Distinct sockets binds w)
    (hg : Grants w ns w')
    (hcount : ∀ n, (numbersOf sockets' binds').count n ≤ (numbersOf sockets binds).count n + ns.count n)
    {n : Int} (hn : 0 < n) : (numbersOf sockets' binds').count n ≤ w'.openings n := by
  have := h.count n hn
  have := hg n hn
  have := hcount n
  omega

/-- The records give up the number that is closed. -/
theorem Distinct.gives {sockets' binds' : List DsuSocket} {c : Int} (h : Distinct sockets binds w) (hc : w.Closes c w')
    (hle : ∀ n, (numbersOf sockets' binds').count n ≤ (numbersOf sockets binds).count n)
    (hgone : 0 < c → (numbersOf sockets' binds').count c < (numbersOf sockets binds).count c ∨ c ∉ numbersOf sockets binds)
    {n : Int} (hn : 0 < n) : (numbersOf sockets' binds').count n ≤ w'.openings n := by
  have hcount := h.count n hn
  have hone := w.openings_le n
  have hmono := hle n
  rw [hc.openings]
  split
  · rename_i he
    rw [he] at hcount hone hmono ⊢
    rcases hgone (he ▸ hn) with hlt | hnot
    · omega
    · rw [List.count_eq_zero.mpr hnot] at hmono
      omega
  · omega

theorem socket_distinct (h : Distinct p.sockets p.binds p.world) :
    Distinct (socket K p).2.sockets (socket K p).2.binds (socket K p).2.world := by
  have hg : Grants p.world [(p.world.allot K .user).1] (p.world.allot K .user).2 := grants_allot _
  unfold socket
  simp only
  split
  · rename_i hpos
    refine ⟨fun n hn => h.grants hg (fun n => ?_) hn, fun r hr => ?_, fun r hr => ?_⟩
    · simp only [numbersOf, dsuSocketsAdd, List.map_append, List.count_append, List.map_cons, List.map_nil]
      omega
    · simp only [dsuSocketsAdd, List.mem_append, List.mem_singleton] at hr
      rcases hr with (hr | rfl) | hr
      · exact h.positive r (List.mem_append_left _ hr)
      · exact hpos
      · exact h.positive r (List.mem_append_right _ hr)
    · rcases List.mem_append.mp hr with hr | hr
      · exact h.unbound r hr
      · cases List.mem_singleton.mp hr
        exact ⟨rfl, rfl⟩
  · exact ⟨fun n hn => h.grants hg (fun n => Nat.le_add_right _ _) hn, h.positive, h.unbound⟩

/-- `bind` moves a record and gives it the numbers it has been given. -/
theorem Distinct.bound {s s₀ : DsuSocket} (h : Distinct p.sockets p.binds p.world) (hb : Bound p s w q)
    (hs : dsuSocketsSearchFd p.sockets s.fd = some s₀) (hcomfds : s.comfds = [])
    (hg : Grants p.world ((if s.shadowfd = s.fd then [] else [s.shadowfd]) ++ [s.comfd]) w) :
    Distinct q.sockets q.binds q.world := by
  obtain ⟨s', hbinds, hfd, hshadow, -, hcomfd, -, hcomfds', hmon, -⟩ := hb.binds
  obtain ⟨pre, post, hsockets, hremove⟩ := dsuSocketsRemoveFd_of_find hs
  have hs₀ : s₀.fd = s.fd := (mem_of_search_fd hs).2
  have hnumbers : s'.numbers = s.fd :: ((if s.shadowfd = s.fd then [] else [s.shadowfd]) ++ [s.comfd]) := by
    unfold DsuSocket.numbers DsuSocket.watched
    rw [hfd, hshadow, hmon, hcomfd, hcomfds', hcomfds]
    rfl
  have hgrants : Grants p.world ((if s.shadowfd = s.fd then [] else [s.shadowfd]) ++ [s.comfd]) q.world := by
    intro n hn
    rw [World.openings_congr hb.world.fdt]
    exact hg n hn
  rw [hb.sockets, hremove, hbinds]
  refine ⟨fun n hn => h.grants hgrants (fun n => ?_) hn, fun r hr => ?_, fun r hr => ?_⟩
  · have hold : (numbersOf p.sockets p.binds).count n =
        (numbersOf (pre ++ post) p.binds).count n + [s.fd].count n := by
      rw [hsockets, numbersOf_count_socket, hs₀]
    have hnew : (numbersOf (pre ++ post) (p.binds ++ [s'])).count n =
        (numbersOf (pre ++ post) p.binds).count n + s'.numbers.count n := by
      unfold numbersOf
      simp only [List.flatMap_append, List.flatMap_singleton, List.count_append]
      omega
    rw [hnew, hold, hnumbers, ← List.singleton_append (l := _ ++ _), List.count_append]
    omega
  · have hpos : 0 < s.fd := hs₀ ▸ h.positive s₀ (by simp [hsockets])
    simp only [List.mem_append, List.mem_singleton] at hr
    rcases hr with (hr | hr) | hr | rfl
    · exact h.positive r (by simp [hsockets, hr])
    · exact h.positive r (by simp [hsockets, hr])
    · exact h.positive r (by simp [hr])
    · exact hfd ▸ hpos
  · refine h.unbound r ?_
    rw [hsockets]
    rcases List.mem_append.mp hr with hr | hr <;> simp [hr]

/-- The numbers that a record has after an exchange with another version. -/
theorem dsuInheritFd_grants {s : DsuSocket} (hshadow : s.shadowfd = s.fd) (hg : Grants w [s.comfd] w') :
    let s' := (dsuInheritFd K s w').2.1
    s'.fd = s.fd ∧ s'.comfds = s.comfds ∧
    Grants w ((if s'.shadowfd = s'.fd then [] else [s'.shadowfd]) ++ [s'.comfd]) (dsuInheritFd K s w').2.2 := by
  rw [dsuInheritFd_eq]
  split
  · refine ⟨rfl, rfl, ?_⟩
    simp only
    have htick : Grants w [s.comfd] w'.tick := hg.trans (grants_of_same w'.same_tick)
    have hread : Grants w (s.comfd :: if (dsuReadFd K w'.tick s.comfd s.shadowfd 0 .shadow).1 = s.fd then []
        else [(dsuReadFd K w'.tick s.comfd s.shadowfd 0 .shadow).1])
        (dsuReadFd K w'.tick s.comfd s.shadowfd 0 .shadow).2.2 := by
      rcases dsuReadFd_grants (K := K) w'.tick s.comfd s.shadowfd 0 .shadow with ⟨hsame, hw⟩ | hnew
      · rw [if_pos (hsame.trans hshadow)]
        exact htick.trans (grants_of_same hw)
      · split
        · exact fun n hn => Nat.le_trans (Nat.add_le_add_left (List.Sublist.count_le n (by simp)) _) (htick.trans hnew n hn)
        · exact htick.trans hnew
    generalize dsuReadFd K w'.tick s.comfd s.shadowfd 0 .shadow = shadow at hread ⊢
    have hclose := World.closes_close (dsuReadFd K shadow.2.2 s.comfd 0 shadow.2.1 .com).2.2 K s.comfd
    refine Grants.close ?_ hclose
    rcases dsuReadFd_grants (K := K) shadow.2.2 s.comfd 0 shadow.2.1 .com with ⟨hsame, hw⟩ | hnew
    · exact hread.trans (grants_nonpos hsame.le hw)
    · exact hread.trans hnew
  · refine ⟨rfl, rfl, ?_⟩
    rw [if_pos hshadow]
    exact hg.trans (grants_of_same w'.same_tick)

theorem bind_distinct (sockfd : Int) (port : Nat) (h : Distinct p.sockets p.binds p.world) :
    Distinct (bind K p sockfd port).2.sockets (bind K p sockfd port).2.binds (bind K p sockfd port).2.world := by
  have hcom : Grants p.world [(p.world.allot K .com).1] (p.world.allot K .com).2.tick :=
    (grants_allot (K := K) .com).trans (grants_of_same (World.same_tick _))
  rcases bind_cases K p sockfd port with ⟨-, hq⟩ | ⟨s, hs, hq⟩
  · rw [hq]
    exact h
  · have hfd : s.fd = sockfd := (mem_of_search_fd hs).2
    have hs' : dsuSocketsSearchFd p.sockets s.fd = some s := hfd.symm ▸ hs
    obtain ⟨hshadow, hcomfds⟩ := h.unbound s (List.mem_of_find?_eq_some hs)
    rcases hq with ⟨-, hq⟩ | ⟨-, hq⟩
    · refine h.bound hq hs' hcomfds ?_
      simp only [if_pos hshadow]
      exact hcom
    · obtain ⟨hfd', hcomfds', hg⟩ := dsuInheritFd_grants (K := K)
        (s := { s with port := port, comfd := (p.world.allot K .com).1 }) hshadow hcom
      exact h.bound hq (by rw [hfd']; exact hs') (hcomfds'.trans hcomfds) hg

/-- A write to the record that a search returned, which leaves it its socket. -/
theorem forall_mem_update {test : DsuSocket → Bool} {f : DsuSocket → DsuSocket} (hf : ∀ r, (f r).fd = r.fd)
    (h : ∀ r ∈ binds, 0 < r.fd) : ∀ r ∈ dsuSocketsUpdate test f binds, 0 < r.fd := by
  have hmap : ∀ l : List DsuSocket, (∀ r ∈ l, 0 < r.fd) ↔ ∀ n ∈ l.map (·.fd), 0 < n := by simp
  rw [hmap, map_dsuSocketsUpdate hf, ← hmap]
  exact h

theorem numbersOf_update {test : DsuSocket → Bool} {f : DsuSocket → DsuSocket} (hf : ∀ r, (f r).numbers = r.numbers) :
    numbersOf sockets (dsuSocketsUpdate test f binds) = numbersOf sockets binds := by
  unfold numbersOf
  rw [List.flatMap_def, List.flatMap_def, map_dsuSocketsUpdate hf]

theorem accept_distinct (sockfd : Int) (h : Distinct p.sockets p.binds p.world) :
    Distinct (accept K p sockfd).2.sockets (accept K p sockfd).2.binds (accept K p sockfd).2.world := by
  have hg := fun kind => grants_accept (K := K) (w := p.world) (dsuShadowfd p.binds sockfd) kind
  unfold accept
  simp only
  generalize hsession : p.world.accept K (dsuShadowfd p.binds sockfd) _ = session
  have hgrants : Grants p.world [session.1] session.2 := hsession ▸ hg _
  split
  · exact ⟨fun n hn => h.grants hgrants (fun n => Nat.le_add_right _ _) hn, h.positive, h.unbound⟩
  · refine ⟨fun n hn => h.grants hgrants (fun n => ?_) hn, ?_, h.unbound⟩
    · rw [numbersOf_update (f := fun r => dsuSocketAddFds r session.1 .nonInternal) fun _ => rfl]
      exact Nat.le_add_right _ _
    · obtain ⟨hsockets, hbinds⟩ := List.forall_mem_append.mp h.positive
      exact List.forall_mem_append.mpr ⟨hsockets, forall_mem_update (fun _ => rfl) hbinds⟩

/-! ### `close` -/

/-- The program closes no shadow that it does not know of, and 1 or 2 only where no record holds it: `close`
    passes them on without a look at the records. -/
def Call.Spares (p : Proc) : Call → Prop
  | .close sockfd => (sockfd = 1 ∨ sockfd = 2 → sockfd ∉ numbersOf p.sockets p.binds) ∧
    ∀ r ∈ p.binds, sockfd = r.shadowfd → sockfd = r.fd
  | _ => True

section Close
variable {c : Int} (h : Distinct sockets binds w) (hw : w.Closes c w')
include h hw

/-- No record holds the number. -/
theorem Distinct.closeOther (hc : c = 0 ∨ c ∉ numbersOf sockets binds) : Distinct sockets binds w' :=
  ⟨fun _ hn => h.gives hw (fun _ => Nat.le_refl _) (fun hpos => Or.inr (hc.resolve_left hpos.ne')) hn, h.positive, h.unbound⟩

theorem Distinct.closeSocket {s : DsuSocket} (hfind : dsuSocketsSearchFd sockets c = some s) :
    Distinct (dsuSocketsRemoveFd sockets c) binds w' := by
  obtain ⟨pre, post, rfl, hremove⟩ := dsuSocketsRemoveFd_of_find hfind
  have hs : s.fd = c := (mem_of_search_fd hfind).2
  have hsub : ∀ r ∈ pre ++ post, r ∈ pre ++ s :: post := by
    intro r hr
    rcases List.mem_append.mp hr with hr | hr <;> simp [hr]
  obtain ⟨hsockets, hbinds⟩ := List.forall_mem_append.mp h.positive
  rw [hremove]
  refine ⟨fun n hn => h.gives hw (fun n => ?_) (fun _ => Or.inl ?_) hn,
    List.forall_mem_append.mpr ⟨fun r hr => hsockets r (hsub r hr), hbinds⟩, fun r hr => h.unbound r (hsub r hr)⟩
  · rw [numbersOf_count_socket]
    exact Nat.le_add_right _ _
  · rw [numbersOf_count_socket, hs, List.count_singleton_self]
    exact Nat.lt_succ_self _

theorem Distinct.closeBound (hfind : dsuSocketsSearchFd binds c = some r) :
    Distinct sockets (dsuSocketsRemoveFd binds c) w' := by
  obtain ⟨pre, post, rfl, hremove⟩ := dsuSocketsRemoveFd_of_find hfind
  have hr : r.fd = c := (mem_of_search_fd hfind).2
  have hself : 0 < r.numbers.count c := List.count_pos_iff.mpr (List.mem_cons.mpr (Or.inl hr.symm))
  have hpositive := h.positive
  simp only [List.forall_mem_append, List.forall_mem_cons] at hpositive
  rw [hremove]
  refine ⟨fun n hn => h.gives hw (fun n => ?_) (fun _ => Or.inl ?_) hn, ?_, h.unbound⟩
  · rw [numbersOf_count]
    exact Nat.le_add_right _ _
  · rw [numbersOf_count]
    omega
  · simp only [List.forall_mem_append]
    exact ⟨hpositive.1, hpositive.2.1, hpositive.2.2.2⟩

/-- The record that a search returned gives up the number, or no record holds it. -/
theorem Distinct.closeUpdate {test : DsuSocket → Bool} {f : DsuSocket → DsuSocket} (hfind : binds.find? test = some r)
    (hfd : ∀ r, (f r).fd = r.fd) (hle : ∀ n, (f r).numbers.count n ≤ r.numbers.count n)
    (hgone : (f r).numbers.count c < r.numbers.count c ∨ c ∉ numbersOf sockets binds) :
    Distinct sockets (dsuSocketsUpdate test f binds) w' := by
  obtain ⟨pre, post, rfl, hupdate⟩ := dsuSocketsUpdate_of_find hfind f
  obtain ⟨hsockets, hbinds⟩ := List.forall_mem_append.mp h.positive
  refine ⟨fun n hn => h.gives hw (fun n => ?_) (fun _ => hgone.imp_left fun hlt => ?_) hn,
    List.forall_mem_append.mpr ⟨hsockets, forall_mem_update hfd hbinds⟩, h.unbound⟩
  · rw [hupdate, numbersOf_count, numbersOf_count]
    exact Nat.add_le_add_left (hle n) _
  · rw [hupdate, numbersOf_count, numbersOf_count]
    exact Nat.add_lt_add_left hlt _

theorem Distinct.closeMonitor (hfind : dsuSocketsSearchFds binds c .monitor = some r) :
    Distinct sockets (dsuSocketsUpdate (·.listens c .monitor) ({ · with monitoring := false }) binds) w' := by
  have hlistens := List.find?_some hfind
  simp only [DsuSocket.listens, Bool.and_eq_true, beq_iff_eq] at hlistens
  refine h.closeUpdate hw hfind (fun _ => rfl) (fun n => ?_) (Or.inl ?_)
  · rw [numbers_count, numbers_count]
    simp
  · rw [numbers_count, numbers_count]
    simp [hlistens]

theorem Distinct.closeInternal (hfind : dsuSocketsSearchFds binds c .internal = some r) :
    Distinct sockets (dsuSocketsUpdate (·.listens c .internal) (dsuSocketRemoveFds · c .internal) binds) w' := by
  have hlistens := List.find?_some hfind
  simp only [DsuSocket.listens, List.contains_eq_mem, decide_eq_true_eq] at hlistens
  have hpos := List.count_pos_iff.mpr hlistens
  have herase : (r.comfds.erase c).count c < r.comfds.count c := by
    rw [List.count_erase_self]
    omega
  refine h.closeUpdate hw hfind (fun _ => rfl) (fun n => ?_) (Or.inl ?_)
  · rw [numbers_count, numbers_count]
    exact Nat.add_le_add_left (Nat.add_le_add_left (List.erase_sublist.count_le n) _) _
  · rw [numbers_count, numbers_count]
    exact Nat.add_lt_add_left (Nat.add_lt_add_left herase _) _

end Close

/-- What the searches of `close` do not find is no number of a record but a shadow. -/
theorem not_mem_numbersOf {sockfd : Int} (hsockets : dsuSocketsSearchFd sockets sockfd = none)
    (hbinds : dsuSocketsSearchFd binds sockfd = none) (hmonitor : dsuSocketsSearchFds binds sockfd .monitor = none)
    (hinternal : dsuSocketsSearchFds binds sockfd .internal = none)
    (hshadow : ∀ r ∈ binds, sockfd = r.shadowfd → sockfd = r.fd) : sockfd ∉ numbersOf sockets binds := by
  intro hmem
  rcases List.mem_append.mp hmem with hmem | hmem
  · obtain ⟨r, hr, he⟩ := List.mem_map.mp hmem
    exact fd_ne_of_search_none hsockets r hr he
  · obtain ⟨r, hr, hmem⟩ := List.mem_flatMap.mp hmem
    have hfd := fd_ne_of_search_none hbinds r hr
    rcases List.mem_cons.mp hmem with hmem | hmem
    · exact hfd hmem.symm
    · rcases List.mem_append.mp hmem with hmem | hmem
      · split at hmem
        · cases hmem
        · exact hfd (hshadow r hr (List.mem_singleton.mp hmem)).symm
      · exact not_mem_watched hmonitor hinternal r hr hmem

theorem close_distinct {sockfd : Int} (hs : Call.Spares p (.close sockfd)) (h : Distinct p.sockets p.binds p.world) :
    Distinct (close K p sockfd).sockets (close K p sockfd).binds (close K p sockfd).world := by
  have hw := p.world.closes_close K sockfd
  unfold close
  split
  · rename_i hstd
    simp only [Bool.or_eq_true, decide_eq_true_eq, or_assoc] at hstd
    exact h.closeOther hw (hstd.imp_right hs.1)
  split
  · rename_i hfind
    obtain ⟨s, hfind⟩ := Option.isSome_iff_exists.mp hfind
    exact h.closeSocket hw hfind
  rename_i hsockets
  rw [Bool.not_eq_true, Option.isSome_eq_false_iff, Option.isNone_iff_eq_none] at hsockets
  split
  · rename_i r hfind
    exact h.closeBound hw hfind
  rename_i hbinds
  split
  · rename_i hfind
    obtain ⟨r, hfind⟩ := Option.isSome_iff_exists.mp hfind
    exact h.closeMonitor hw hfind
  rename_i hmonitor
  rw [Bool.not_eq_true, Option.isSome_eq_false_iff, Option.isNone_iff_eq_none] at hmonitor
  split
  · rename_i hfind
    obtain ⟨r, hfind⟩ := Option.isSome_iff_exists.mp hfind
    exact h.closeInternal hw hfind
  rename_i hinternal
  rw [Bool.not_eq_true, Option.isSome_eq_false_iff, Option.isNone_iff_eq_none] at hinternal
  have hnot := not_mem_numbersOf hsockets hbinds hmonitor hinternal hs.2
  split
  · rename_i hfind
    obtain ⟨r, hfind⟩ := Option.isSome_iff_exists.mp hfind
    exact h.closeUpdate hw hfind (fun _ => rfl) (fun n => Nat.le_refl _) (Or.inr hnot)
  · exact h.closeOther hw (Or.inr hnot)

/-! ### Runs -/

theorem epollCtl_distinct (epfd : Int) (op : EpollOp) (fd : Int) (event : EpollEvent)
    (h : Distinct p.sockets p.binds p.world) :
    Distinct (epollCtl K p epfd op fd event).2.sockets (epollCtl K p epfd op fd event).2.binds
      (epollCtl K p epfd op fd event).2.world := by
  have hopen : ∀ n fd, (p.world.epollCtl K epfd op fd event false).2.openings n = p.world.openings n :=
    fun n fd => World.openings_congr (World.epollCtl_fdt p.world K epfd op fd event false) n
  unfold epollCtl
  split
  · exact ⟨fun n hn => (h.count n hn).trans (hopen n fd).ge, h.positive, h.unbound⟩
  · obtain ⟨hsockets, hbinds⟩ := List.forall_mem_append.mp h.positive
    refine ⟨fun n hn => ?_, List.forall_mem_append.mpr ⟨hsockets, forall_mem_update (fun _ => rfl) hbinds⟩, h.unbound⟩
    refine (congrArg (List.count n) (numbersOf_update fun _ => ?_)).le.trans ((h.count n hn).trans (hopen n _).ge)
    rfl

theorem step_distinct {call : Call} (h : Distinct p.sockets p.binds p.world) (hc : call.Spares p)
    (hs : p.step K call = some q) : Distinct q.sockets q.binds q.world := by
  cases step_takes hs with
  | socket => exact socket_distinct h
  | bind sockfd port => exact bind_distinct sockfd port h
  | accept sockfd => exact accept_distinct sockfd h
  | close sockfd => exact close_distinct hc h
  | epollCtl epfd op fd event => exact epollCtl_distinct epfd op fd event h
  | event _ he =>
    rw [he.sockets]
    exact he.changes.distinct h

theorem Proc.Started.distinct (h : p.Started) : Distinct p.sockets p.binds p.world := by
  rw [h.sockets, h.binds]
  exact ⟨fun n _ => Nat.zero_le _, by simp, by simp⟩

/-- The numbers stay apart in every run in which the program spares those of the library. -/
theorem distinct_of_steps (h : p.Started) {calls : List Call} (hc : (procMachine K).Steps (fun p c => c.Spares p) p calls)
    (hrun : (procMachine K).run p calls = some q) : Distinct q.sockets q.binds q.world :=
  Machine.Steps.invariant (I := fun p : Proc => Distinct p.sockets p.binds p.world)
    (fun _ _ _ h hc hs => step_distinct h hc hs) h.distinct hc hrun

/-! ### Records apart -/

/-- The numbers of the records can be told from each other. -/
structure Apart (binds : List DsuSocket) : Prop where
  names : (binds.map DsuSocket.names).Pairwise fun a b => a.1 ≠ b.1 ∧ a.1 ≠ b.2 ∧ a.2 ≠ b.1
  sockets : ∀ r ∈ binds, ¬Watched binds r.fd

theorem Apart.asks {c c' : List DsuSocket × World} (h : ReflTransGen (Within Ask) c c') (ha : Apart c.1) : Apart c'.1 where
  names := by
    rw [asks_map (g := DsuSocket.names) (fun _ => rfl) h]
    exact ha.names
  sockets r hr hw := by
    have hfd : r.fd ∈ c.1.map DsuSocket.fd := by
      rw [← asks_map (g := DsuSocket.fd) (fun _ => rfl) h]
      exact List.mem_map_of_mem hr
    obtain ⟨x, hx, he⟩ := List.mem_map.mp hfd
    refine ha.sockets x hx ?_
    rw [he]
    exact hw.of_map (asks_map (g := DsuSocket.watched) (fun _ => rfl) h).symm

/-- A number of a record is no number of another one. -/
theorem Distinct.not_mem {pre post : List DsuSocket} {x : DsuSocket} {n : Int}
    (h : Distinct sockets (pre ++ r :: post) w) (hn : 0 < n) (hr : n ∈ r.numbers) (hx : x ∈ pre ++ post) :
    n ∉ x.numbers := by
  intro hmem
  have hcount := h.count n hn
  have hone := w.openings_le n
  have hself := List.count_pos_iff.mpr hr
  have hother : 0 < (numbersOf sockets (pre ++ post)).count n :=
    List.count_pos_iff.mpr (List.mem_append_right _ (List.mem_flatMap.mpr ⟨x, hx, hmem⟩))
  rw [numbersOf_count] at hcount
  omega

theorem fd_mem_numbers (r : DsuSocket) : r.fd ∈ r.numbers := List.mem_cons_self

theorem shadowfd_mem_numbers (r : DsuSocket) : r.shadowfd ∈ r.numbers := by
  unfold DsuSocket.numbers
  by_cases h : r.shadowfd = r.fd <;> simp [h]

theorem mem_numbers_of_watched {n : Int} (h : n ∈ r.watched) : n ∈ r.numbers := by
  unfold DsuSocket.numbers
  simp [h]

theorem Distinct.isOpen_of_number {n : Int} (h : Distinct sockets binds w) (hn : 0 < n)
    (hmem : n ∈ numbersOf sockets binds) : w.isOpen n = true :=
  World.isOpen_of_openings ((List.count_pos_iff.mpr hmem).trans_le (h.count n hn))

/-- The numbers of a record are open. -/
theorem Distinct.isOpen_of_mem {n : Int} (h : Distinct sockets binds w) (hr : r ∈ binds) (hn : 0 < n)
    (hmem : n ∈ r.numbers) : w.isOpen n = true :=
  h.isOpen_of_number hn (List.mem_append_right _ (List.mem_flatMap.mpr ⟨r, hr, hmem⟩))

/-- Numbers that are open and differ. -/
theorem Distinct.of_nodup (hnodup : (numbersOf sockets binds).Nodup)
    (hopen : ∀ n ∈ numbersOf sockets binds, w.isOpen n = true) (hpos : ∀ r ∈ sockets ++ binds, 0 < r.fd)
    (hunbound : ∀ r ∈ sockets, r.shadowfd = r.fd ∧ r.comfds = []) : Distinct sockets binds w := by
  refine ⟨fun n _ => ?_, hpos, hunbound⟩
  by_cases hn : n ∈ numbersOf sockets binds
  · rw [World.openings, if_pos (hopen n hn)]
    exact List.nodup_iff_count_le_one.mp hnodup n
  · rw [List.count_eq_zero.mpr hn]
    exact Nat.zero_le _

/-- No record watches its own socket. -/
theorem Distinct.not_mem_watched {pre post : List DsuSocket} {n : Int} (h : Distinct sockets (pre ++ r :: post) w)
    (hn : 0 < n) (hr : n = r.fd ∨ n = r.shadowfd) : n ∉ r.watched := by
  intro hwatched
  have hcount := h.count n hn
  have hone := w.openings_le n
  have hself := List.count_pos_iff.mpr hwatched
  have hsocket : 0 < (r.fd :: if r.shadowfd = r.fd then [] else [r.shadowfd]).count n := by
    refine List.count_pos_iff.mpr ?_
    rcases hr with rfl | rfl
    · exact List.mem_cons_self
    · by_cases he : r.shadowfd = r.fd <;> simp [he]
  rw [numbersOf_count, DsuSocket.numbers, ← List.cons_append, List.count_append] at hcount
  omega

theorem Distinct.apart (h : Distinct sockets binds w) : Apart binds where
  names := by
    rw [List.pairwise_map, List.pairwise_iff_forall_sublist]
    intro r x hrx
    obtain ⟨l, l', rfl, hr, hx⟩ := List.cons_sublist_iff.mp hrx
    obtain ⟨pre, mid, rfl⟩ := List.append_of_mem hr
    have hxpos : 0 < x.fd := h.positive x (by simp [List.singleton_sublist.mp hx])
    have hx : x ∈ pre ++ (mid ++ l') := by simp [List.singleton_sublist.mp hx]
    rw [List.append_assoc, List.cons_append] at h
    have hrpos : 0 < r.fd := h.positive r (by simp)
    refine ⟨fun (he : r.fd = x.fd) => ?_, fun (he : r.fd = x.shadowfd) => ?_, fun (he : r.shadowfd = x.fd) => ?_⟩
    · exact h.not_mem hrpos (fd_mem_numbers r) hx (he ▸ fd_mem_numbers x)
    · exact h.not_mem hrpos (fd_mem_numbers r) hx (he ▸ shadowfd_mem_numbers x)
    · exact h.not_mem hxpos (he ▸ shadowfd_mem_numbers r) hx (fd_mem_numbers x)
  sockets r hr := by
    rintro ⟨x, hx, hwatched⟩
    obtain ⟨pre, post, rfl⟩ := List.append_of_mem hr
    have hpos : 0 < r.fd := h.positive r (by simp)
    have hother : x ∉ pre ++ post := fun hx => h.not_mem hpos (fd_mem_numbers r) hx (mem_numbers_of_watched hwatched)
    have hx : x = r := by
      simp only [List.mem_append, List.mem_cons, not_or] at hx hother
      exact (hx.resolve_left hother.1).resolve_right hother.2
    exact h.not_mem_watched hpos (Or.inl rfl) (hx ▸ hwatched)

end OpenDSU
