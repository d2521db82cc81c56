import OpenDSU.Ledger
import OpenDSU.Theorems.Termination

/-! The descriptors that the library has opened or received for itself: the listening `comfd` of a port, the
connections of other versions, and the inherited `shadowfd`. Each belongs to a record in `binds` until it is closed,
as long as the program does not close a bound socket. -/

namespace OpenDSU

/-- The library has the descriptor for itself. -/
def Kind.isLibrary : Kind → Bool
  | .com | .shadow | .internal => true
  | .user | .client => false

/-- The record has the descriptor for what the library opened it for. -/
def DsuSocket.owns (r : DsuSocket) (fd : Int) : Kind → Bool
  | .com => r.monitoring && r.comfd == fd
  | .shadow => r.shadowfd == fd
  | .internal => r.comfds.contains fd
  | .user | .client => false

/-- Every open descriptor of the library belongs to a record. -/
def Owned (binds : List DsuSocket) (w : World) : Prop :=
  ∀ fd file, w.fdt fd = some file → file.kind.isLibrary = true → ∃ r ∈ binds, r.owns fd file.kind = true

/-- Between two calls, no endpoint of a hand-over is left without a record. -/
def NoOrphan (p : Proc) : Prop := Owned p.binds p.world

/-- A bound socket is closed only where its record owns no other open descriptor of the library alone. -/
def Call.LeavesNone (p : Proc) : Call → Prop
  | .close sockfd =>
    isStd sockfd = false → dsuSocketsSearchFd p.sockets sockfd = none →
      ∀ r, dsuSocketsSearchFd p.binds sockfd = some r →
        ∀ fd file, p.world.fdt fd = some file → r.owns fd file.kind = true →
          fd = sockfd ∨ ∃ r' ∈ dsuSocketsRemoveFd p.binds sockfd, r'.owns fd file.kind = true
  | _ => True

variable {K : Kernel} {p q : Proc} {binds : List DsuSocket} {r r' : DsuSocket} {w w' : World}

theorem isLibrary_of_owns {fd : Int} {kind : Kind} (h : r.owns fd kind = true) : kind.isLibrary = true := by
  cases kind with
  | user => cases h
  | client => cases h
  | com => rfl
  | shadow => rfl
  | internal => rfl

theorem owns_imp {fd : Int} {kind : Kind} (hcom : r.monitoring = true → r.comfd = fd → r'.monitoring = true ∧ r'.comfd = fd)
    (hshadow : r.shadowfd = fd → r'.shadowfd = fd) (hcomfds : fd ∈ r.comfds → fd ∈ r'.comfds)
    (h : r.owns fd kind = true) : r'.owns fd kind = true := by
  cases kind with
  | com =>
    simp only [DsuSocket.owns, Bool.and_eq_true, beq_iff_eq] at h ⊢
    exact hcom h.1 h.2
  | shadow =>
    simp only [DsuSocket.owns, beq_iff_eq] at h ⊢
    exact hshadow h
  | internal =>
    simp only [DsuSocket.owns, List.contains_eq_mem, decide_eq_true_eq] at h ⊢
    exact hcomfds h
  | user => cases h
  | client => cases h

theorem Alike.owns (h : Alike r r') {fd : Int} {kind : Kind} (ho : r.owns fd kind = true) : r'.owns fd kind = true :=
  owns_imp (fun hm hc => ⟨h.monitoring.trans hm, h.comfd.trans hc⟩) h.shadowfd.trans (fun hc => h.comfds ▸ hc) ho

/-! ### Event calls -/

/-- No descriptor of the library is opened, and the record keeps those that stay open. -/
theorem Owned.replace {pre post : List DsuSocket} (h : Owned (pre ++ r :: post) w)
    (hfdt : ∀ fd file, w'.fdt fd = some file → file.kind.isLibrary = true →
      w.fdt fd = some file ∧ (r.owns fd file.kind = true → r'.owns fd file.kind = true)) :
    Owned (pre ++ r' :: post) w' := by
  intro fd file hf hk
  obtain ⟨hf, howns⟩ := hfdt fd file hf hk
  exact Proc.exists_mem_replace howns (h fd file hf hk)

theorem Owned.mono {binds' : List DsuSocket} (h : Owned binds w)
    (hfdt : ∀ fd file, w'.fdt fd = some file → file.kind.isLibrary = true → w.fdt fd = some file)
    (hbinds : ∀ r ∈ binds, r ∈ binds') : Owned binds' w' := by
  intro fd file hf hk
  obtain ⟨r, hr, howns⟩ := h fd file (hfdt fd file hf hk) hk
  exact ⟨r, hbinds r hr, howns⟩

theorem Owned.closes {c : Int} (h : Owned binds w) (hw : w.Closes c w') : Owned binds w' := by
  refine h.mono (fun fd file hf _ => ?_) fun _ hr => hr
  rw [hw.fdt] at hf
  exact (Option.ite_none_left_eq_some.mp hf).2

theorem Owned.effect {pre post : List DsuSocket} (he : Effect (r, w) (r', w')) (h : Owned (pre ++ r :: post) w) :
    Owned (pre ++ r' :: post) w' := by
  cases he with
  | quiet hr hw => exact h.replace fun fd file hf _ => ⟨hw.fdt ▸ hf, hr.owns⟩
  | quit _ hr hw =>
    refine h.replace fun fd file hf _ => ?_
    rw [hw.fdt] at hf
    obtain ⟨hne, hf⟩ := Option.ite_none_left_eq_some.mp hf
    exact ⟨hf, fun ho => hr.owns (owns_imp (fun _ hc => absurd hc.symm hne) id id ho)⟩
  | accepted c hr hw =>
    intro fd file hf hk
    rw [hw.fdt] at hf
    simp only at hf
    split at hf
    · rename_i hfd
      cases hf
      refine ⟨r', by simp, hr.owns ?_⟩
      simp [DsuSocket.owns, hfd]
    · exact Proc.exists_mem_replace
        (fun ho => hr.owns (owns_imp (r := r) (fun hm hc => ⟨hm, hc⟩) id (List.mem_append_left _) ho)) (h fd file hf hk)
  | closed c _ hr hw =>
    refine h.replace fun fd file hf _ => ?_
    rw [hw.fdt] at hf
    obtain ⟨hne, hf⟩ := Option.ite_none_left_eq_some.mp hf
    exact ⟨hf, fun ho => hr.owns (owns_imp (r := r) (fun hm hc => ⟨hm, hc⟩) id (List.mem_erase_of_ne hne).mpr ho)⟩
  | locked hr hw => exact h.replace fun fd file hf _ => ⟨hw.fdt ▸ hf, hr.owns⟩
  | unlocked _ hr hw => exact h.replace fun fd file hf _ => ⟨hw.fdt ▸ hf, hr.owns⟩

theorem Proc.Evolves.noOrphan (he : p.Evolves q) (h : NoOrphan p) : NoOrphan q :=
  Changes.invariant (I := Owned) (fun _ _ _ hw h => h.mono (fun _ _ hf _ => hw.fdt ▸ hf) fun _ hr => hr)
    (fun _ _ _ _ _ _ he h => h.effect he) he.changes h

/-! ### Calls of the program -/

/-- Between two states of the kernel's side, the library has got only descriptors with `P`. -/
def Gains (P : Int → Kind → Prop) (w w' : World) : Prop :=
  ∀ fd file, w'.fdt fd = some file → file.kind.isLibrary = true → w.fdt fd = some file ∨ P fd file.kind

variable {P : Int → Kind → Prop}

theorem gains_of_same (hw : w.Same w') : Gains P w w' := fun _ _ hf _ => Or.inl (hw.fdt ▸ hf)

theorem Gains.trans {w'' : World} (h : Gains P w w') (h' : Gains P w' w'') : Gains P w w'' := by
  intro fd file hf hk
  rcases h' fd file hf hk with hf | hp
  · exact h fd file hf hk
  · exact Or.inr hp

theorem gains_of_opens {c : Int} {kind : Kind} (hp : kind.isLibrary = true → P c kind) (hw : w.Opens c kind w') :
    Gains P w w' := by
  intro fd file hf hk
  rw [hw.fdt] at hf
  simp only at hf
  split at hf
  · rename_i hfd
    cases hf
    exact Or.inr (hfd ▸ hp hk)
  · exact Or.inl hf

/-- What is closed in the end was no gain. -/
theorem Gains.closes {c : Int} {w'' : World} (h : Gains (fun fd kind => fd = c ∨ P fd kind) w w')
    (hw : w'.Closes c w'') : Gains P w w'' := by
  intro fd file hf hk
  rw [hw.fdt] at hf
  obtain ⟨hne, hf⟩ := Option.ite_none_left_eq_some.mp hf
  exact (h fd file hf hk).imp_right fun hp => hp.resolve_left hne

theorem gains_allot (kind : Kind) (hp : kind.isLibrary = true → P (w.allot K kind).1 kind) :
    Gains P w (w.allot K kind).2 := by
  rcases w.allot_cases K kind with ⟨-, hw⟩ | ⟨c, hc, hw⟩
  · exact gains_of_same hw
  · exact gains_of_opens (hc ▸ hp) hw

theorem gains_readFd (fd recvfd port : Int) (kind : Kind) (hp : P (dsuReadFd K w fd recvfd port kind).1 kind) :
    Gains P w (dsuReadFd K w fd recvfd port kind).2.2 := by
  rcases dsuReadFd_cases K w fd recvfd port kind with ⟨-, hw⟩ | hw
  · exact gains_of_same hw
  · exact gains_of_opens (fun _ => hp) hw

theorem Gains.imp {Q : Int → Kind → Prop} (h : Gains P w w') (hq : ∀ fd kind, P fd kind → Q fd kind) : Gains Q w w' :=
  fun fd file hf hk => (h fd file hf hk).imp_right (hq fd file.kind)

/-- What the record owns once it monitors. -/
def DsuSocket.willOwn (s : DsuSocket) (fd : Int) (kind : Kind) : Prop :=
  DsuSocket.owns { s with monitoring := true } fd kind = true

/-- What an exchange with another version leaves open stands in the record. -/
theorem gains_inheritFd {s : DsuSocket} (hg : Gains (fun fd kind => fd = s.comfd ∧ kind = .com) w w') :
    Gains (dsuInheritFd K s w').2.1.willOwn w (dsuInheritFd K s w').2.2 := by
  rw [dsuInheritFd_eq]
  split
  · simp only
    generalize ha : dsuReadFd K w'.tick s.comfd s.shadowfd 0 .shadow = a
    generalize hb : dsuReadFd K a.2.2 s.comfd 0 a.2.1 .com = b
    have hshadow : DsuSocket.willOwn { s with shadowfd := a.1, comfd := b.1 } a.1 .shadow := by
      simp [DsuSocket.willOwn, DsuSocket.owns]
    have hcom : DsuSocket.willOwn { s with shadowfd := a.1, comfd := b.1 } b.1 .com := by
      simp [DsuSocket.willOwn, DsuSocket.owns]
    have hfirst := gains_readFd (K := K) (w := w'.tick) s.comfd s.shadowfd 0 .shadow (ha ▸ hshadow)
    have hsecond := gains_readFd (K := K) (w := a.2.2) s.comfd 0 a.2.1 .com (hb ▸ hcom)
    rw [ha] at hfirst
    rw [hb] at hsecond
    have hreads := (gains_of_same w'.same_tick).trans (hfirst.trans hsecond)
    exact ((hg.imp fun _ _ h => Or.inl h.1).trans (hreads.imp fun _ _ => Or.inr)).closes (World.closes_close _ K s.comfd)
  · refine (hg.imp fun fd kind h => ?_).trans (gains_of_same w'.same_tick)
    obtain ⟨rfl, rfl⟩ := h
    simp [DsuSocket.willOwn, DsuSocket.owns]

theorem Gains.noOrphan {s : DsuSocket} (h : NoOrphan p)
    (hg : Gains s.willOwn p.world w)
    (hb : Bound p s w q) : NoOrphan q := by
  obtain ⟨s', hbinds, -, hshadow, -, hcomfd, -, hcomfds, hm, -⟩ := hb.binds
  intro fd file hf hk
  rw [hb.world.fdt] at hf
  rw [hbinds]
  rcases hg fd file hf hk with hf | ho
  · obtain ⟨r, hr, ho⟩ := h fd file hf hk
    exact ⟨r, List.mem_append_left _ hr, ho⟩
  · refine ⟨s', by simp, owns_imp (r := { s with monitoring := true }) (fun _ hc => ⟨hm, hcomfd.trans hc⟩)
      hshadow.trans (fun hc => ?_) ho⟩
    rw [hcomfds]
    exact hc

theorem bind_noOrphan (sockfd : Int) (port : Nat) (h : NoOrphan p) : NoOrphan (bind K p sockfd port).2 := by
  have hallot : Gains (fun fd kind => fd = (p.world.allot K .com).1 ∧ kind = .com) p.world (p.world.allot K .com).2.tick :=
    (gains_allot .com fun _ => ⟨rfl, rfl⟩).trans (gains_of_same (World.same_tick _))
  rcases bind_cases K p sockfd port with ⟨-, hq⟩ | ⟨s, -, ⟨-, hq⟩ | ⟨-, hq⟩⟩
  · rw [hq]
    exact h
  · refine Gains.noOrphan h (hallot.imp fun fd kind hown => ?_) hq
    obtain ⟨rfl, rfl⟩ := hown
    simp [DsuSocket.willOwn, DsuSocket.owns]
  · exact Gains.noOrphan h (gains_inheritFd hallot) hq

theorem socket_noOrphan (h : NoOrphan p) : NoOrphan (socket K p).2 := by
  have hw : Gains (fun _ _ => False) p.world (p.world.allot K .user).2 := gains_allot .user nofun
  have hworld : ∀ fd file, (p.world.allot K .user).2.fdt fd = some file → file.kind.isLibrary = true →
      p.world.fdt fd = some file := fun fd file hf hk => (hw fd file hf hk).resolve_right id
  unfold socket
  simp only
  split
  · exact h.mono hworld fun _ hr => hr
  · exact h.mono hworld fun _ hr => hr

/-- A write to the record that a search returned, which keeps what it owns. -/
theorem Owned.update {test : DsuSocket → Bool} {f : DsuSocket → DsuSocket} (h : Owned binds w)
    (hf : ∀ r, test r = true → ∀ fd file, w.fdt fd = some file → r.owns fd file.kind = true →
      (f r).owns fd file.kind = true) : Owned (dsuSocketsUpdate test f binds) w := by
  cases hfind : binds.find? test with
  | none =>
    rw [dsuSocketsUpdate_of_find_none hfind]
    exact h
  | some r =>
    obtain ⟨pre, post, rfl, hupdate⟩ := dsuSocketsUpdate_of_find hfind f
    rw [hupdate]
    exact h.replace fun fd file hfd _ => ⟨hfd, hf r (List.find?_some hfind) fd file hfd⟩

theorem accept_noOrphan (sockfd : Int) (h : NoOrphan p) : NoOrphan (accept K p sockfd).2 := by
  have hworld : ∀ kind : Kind, kind.isLibrary = false →
        Owned p.binds (p.world.accept K (dsuShadowfd p.binds sockfd) kind).2 := by
    intro kind hkind
    have hg : Gains (fun _ _ => False) p.world (p.world.accept K (dsuShadowfd p.binds sockfd) kind).2 := by
      rcases p.world.accept_cases K (dsuShadowfd p.binds sockfd) kind with ⟨-, hw⟩ | ⟨c, -, hw⟩
      · exact gains_of_same hw
      · exact gains_of_opens (fun hk => by rw [hkind] at hk; cases hk) hw
    exact h.mono (fun fd file hf hk => (hg fd file hf hk).resolve_right id) fun _ hr => hr
  unfold accept
  simp only
  generalize hkind : (if (dsuSocketsSearchFd p.binds sockfd).isSome then Kind.client else .user) = kind
  have howned := hworld kind (by rw [← hkind]; split <;> rfl)
  split
  · exact howned
  · exact howned.update fun r _ fd file _ => owns_imp (fun hm hc => ⟨hm, hc⟩) id id

theorem epollCtl_noOrphan (epfd : Int) (op : EpollOp) (fd : Int) (event : EpollEvent) (h : NoOrphan p) :
    NoOrphan (epollCtl K p epfd op fd event).2 := by
  unfold epollCtl
  split
  · exact h.mono (fun d file hf _ => p.world.epollCtl_fdt K .. ▸ hf) fun _ hr => hr
  · refine Owned.update ?_ fun r _ d file _ => owns_imp (fun hm hc => ⟨hm, hc⟩) id id
    exact h.mono (fun d file hf _ => p.world.epollCtl_fdt K .. ▸ hf) fun _ hr => hr

theorem close_noOrphan (sockfd : Int) (h : NoOrphan p) (hc : Call.LeavesNone p (.close sockfd)) :
    NoOrphan (close K p sockfd) := by
  have hcloses := p.world.closes_close K sockfd
  have hclosed : Owned p.binds (p.world.close K sockfd) := h.closes hcloses
  have hleft : ∀ fd file, (p.world.close K sockfd).fdt fd = some file → fd ≠ sockfd ∧ p.world.fdt fd = some file := by
    intro fd file hf
    rw [hcloses.fdt] at hf
    exact Option.ite_none_left_eq_some.mp hf
  unfold close
  split
  · exact hclosed
  · rename_i hstd
    split
    · exact hclosed
    · rename_i hsockets
      split
      · rename_i r hfind
        intro fd file hf hk
        obtain ⟨x, hx, ho⟩ := hclosed fd file hf hk
        obtain ⟨pre, post, hbinds, hremove⟩ := dsuSocketsRemoveFd_of_find hfind
        have hother : x ≠ r → x ∈ dsuSocketsRemoveFd p.binds sockfd := by
          intro hxr
          rw [hbinds] at hx
          rw [hremove]
          simp only [List.mem_append, List.mem_cons] at hx ⊢
          exact hx.imp_right fun hx => hx.resolve_left hxr
        by_cases hxr : x = r
        · subst hxr
          have hopen := (hleft fd file hf).2
          have hnone : dsuSocketsSearchFd p.sockets sockfd = none := by simpa using hsockets
          have hleaves := hc (by simpa [isStd] using hstd) hnone x hfind fd file hopen ho
          exact hleaves.resolve_left (hleft fd file hf).1
        · exact ⟨x, hother hxr, ho⟩
      · rename_i hfind
        split
        · refine hclosed.update fun r hr fd file hf => owns_imp (fun _ hcom => ?_) id id
          have hlistens : r.comfd = sockfd := by
            simp only [DsuSocket.listens, Bool.and_eq_true, beq_iff_eq] at hr
            exact hr.1
          exact absurd (hcom.symm.trans hlistens) (hleft fd file hf).1
        · split
          · exact hclosed.update fun r _ fd file hf =>
              owns_imp (fun hm hcom => ⟨hm, hcom⟩) id (List.mem_erase_of_ne (hleft fd file hf).1).mpr
          · split
            · exact hclosed.update fun r _ fd file _ => owns_imp (fun hm hcom => ⟨hm, hcom⟩) id id
            · exact hclosed

theorem step_noOrphan {call : Call} (h : NoOrphan p) (hc : call.LeavesNone p) (hs : p.step K call = some q) :
    NoOrphan q := by
  cases step_takes hs with
  | socket => exact socket_noOrphan h
  | bind sockfd port => exact bind_noOrphan sockfd port h
  | accept sockfd => exact accept_noOrphan sockfd h
  | close sockfd => exact close_noOrphan sockfd h hc
  | epollCtl epfd op fd event => exact epollCtl_noOrphan epfd op fd event h
  | event _ he => exact he.noOrphan h

/-- What the record of a closed socket alone owned has no record then. -/
theorem leavesNone_of_noOrphan {call : Call} (hs : p.step K call = some q) (hq : NoOrphan q) : call.LeavesNone p := by
  cases step_takes hs with
  | close sockfd =>
    intro hstd hsockets r hfind fd file hf ho
    have hclose : close K p sockfd = { p with
        binds := dsuSocketsRemoveFd p.binds sockfd
        orphans := p.orphans ++ r.connections p.world }.dsuClose K sockfd := by
      unfold close
      rw [if_neg (by simpa [isStd] using hstd), if_neg (by simp [hsockets]), hfind]
    rw [hclose] at hq
    by_cases hfd : fd = sockfd
    · exact Or.inl hfd
    · refine Or.inr (hq fd file ?_ (isLibrary_of_owns ho))
      exact ((p.world.closes_close K sockfd).fdt ▸ (if_neg hfd).trans hf)
  | socket => trivial
  | bind => trivial
  | accept => trivial
  | epollCtl => trivial
  | event hcall =>
    cases call with
    | close => cases hcall
    | _ => trivial

theorem Proc.Started.noOrphan (h : p.Started) : NoOrphan p := by
  intro fd file hf hk
  rw [(h.user fd file hf).1] at hk
  cases hk

/-- A run leaves every endpoint of a hand-over with its record exactly where it closes no bound socket whose record
    owns one. -/
theorem noOrphan_throughout_iff (h : p.Started) (calls : List Call) :
    (procMachine K).Throughout NoOrphan p calls ↔ (procMachine K).Steps (fun p call => call.LeavesNone p) p calls :=
  Machine.throughout_iff_steps (fun _ h => h) (fun _ _ _ h hc hs => step_noOrphan h hc hs)
    (fun _ _ _ _ hs hq => leavesNone_of_noOrphan hs hq) calls h.noOrphan

/-- A version that closes a socket which it has not bound. -/
theorem noOrphan_of_server : (procMachine soloKernel).Throughout NoOrphan .loaded
    [.socket, .socket, .bind 3 8080, .accept 3, .close 4, .close 6] := by
  refine (noOrphan_throughout_iff Proc.started_loaded _).mpr ?_
  -- What is closed is an unbound socket and then a client.
  rintro _ ⟨⟩
  refine ⟨trivial, ?_⟩
  rintro _ ⟨⟩
  refine ⟨trivial, ?_⟩
  rintro _ ⟨⟩
  refine ⟨trivial, ?_⟩
  rintro _ ⟨⟩
  refine ⟨trivial, ?_⟩
  rintro _ ⟨⟩
  refine ⟨fun _ hnone => absurd hnone (by decide), ?_⟩
  rintro _ ⟨⟩
  exact ⟨fun _ _ r hr => absurd (hr.symm.trans (by rfl : _ = none)) (by simp), trivial⟩

/-- The version closes its bound socket: the listening socket of the port stays open, and no record knows it. -/
theorem listener_outlives_record : ∃ p, (procMachine soloKernel).run .loaded [.socket, .bind 3 8080, .close 3] = some p ∧
    p.binds = [] ∧ p.world.fdt 4 = some { id := 4, kind := .com } ∧ ¬NoOrphan p := by
  refine ⟨_, rfl, rfl, rfl, fun h => ?_⟩
  obtain ⟨r, hr, -⟩ := h 4 { id := 4, kind := .com } rfl rfl
  cases hr

end OpenDSU
