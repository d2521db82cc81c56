import OpenDSU.Theorems.NetStep

/-! Whether the calls of `bind` that meet are calls for one address.

What two calls share, they share by the 16 bits at `sin_port`, whatever the rest of their addresses is, and whether
or not the kernel has bound a socket there. A process may itself be the only one that serves the name. -/

namespace OpenDSU

/-- Two calls of `bind` have the same abstract name or shared memory, or one socket behind their `shadowfd`. -/
def NetSock.Meets (x y : NetSock) : Prop :=
  (∃ a ∈ x.call, ∃ b ∈ y.call, a.comfdPath = b.comfdPath ∨ a.shmPathname = b.shmPathname) ∨
    ∃ r ∈ x.entry, ∃ r' ∈ y.entry, ∃ n ∈ r.shadow, n ∈ r'.shadow

namespace Net

/-- Hand-over identity. -/
structure Identity (s : Net) : Prop where
  /-- Calls that meet name one address, and a socket is bound there. -/
  same : s.socks.Pairwise fun x y => x.Meets y → x.call = y.call ∧ ∃ a ∈ x.call, s.Bound a
  inherited : ∀ x ∈ s.socks, ∀ r ∈ x.entry, r.inherited = true → s.BoundAt r.shadow r.addr
  /-- A process in `dsu_inherit_fd` has not connected to itself alone. -/
  elsewhere : ∀ x ∈ s.socks, ∀ addr ∈ x.asks, ∃ y ∈ s.socks, y.pid ≠ x.pid ∧ y.serves addr = true

/-- Each earlier call with the same bits at `sin_port` was for the same address, and a socket is bound there or
    now gets it. -/
def Agrees (s : Net) (addr : SockAddr) (got : Option SockAddr) : Prop :=
  ∀ x ∈ s.socks, ∀ a ∈ x.call, a.sinPort = addr.sinPort → a = addr ∧ (got = some addr ∨ s.Bound addr)

/-- Another process than that of socket `k` serves the abstract name. -/
def ServedElsewhere (s : Net) (k : Nat) (addr : SockAddr) : Prop :=
  ∀ x ∈ s.socks[k]?, ∃ y ∈ s.socks, y.pid ≠ x.pid ∧ y.serves addr = true

/-- The address that socket `k` asks for. -/
def asked (s : Net) (k : Nat) : Option SockAddr := s.socks[k]?.bind NetSock.asks

/-- The socket behind the `shadowfd` of the record of socket `i`. -/
def shadowOf (s : Net) (i : Nat) : Option Nat := (s.socks[i]?.bind NetSock.entry).bind NetRec.shadow

/-- Unless the port is 0 or both messages are lost, the first arrives whole, from a record whose `shadowfd` is bound
    to the address that is asked for. -/
def HandsOver (s : Net) (k i : Nat) (first second : Arrival) : Prop :=
  ∀ addr ∈ s.asked k, 0 < addr.port → first ≠ .lost ∨ second ≠ .lost →
    first = .full ∧ s.BoundAt (s.shadowOf i) addr

/-- The steps that keep the identity. -/
def Proper (s : Net) : NetAct → Prop
  | .socket _ => True
  | .bindFirst _ addr got => s.Agrees addr got
  | .bindAlone _ addr got => s.Agrees addr got
  | .request k addr => s.Agrees addr none ∧ s.ServedElsewhere k addr
  | .answer k i first second _ => s.HandsOver k i first second

variable {s t : Net} {x x' y : NetSock} {k i : Nat} {addr : SockAddr} {got : Option SockAddr}

/-! ### Calls that meet -/

/-- Two calls with the same bits at `sin_port` are for one address, and a socket is bound there. -/
def Compatible (s : Net) (x y : NetSock) : Prop :=
  ∀ a ∈ x.call, ∀ b ∈ y.call, a.sinPort = b.sinPort → a = b ∧ s.Bound a

theorem Compatible.symm (h : s.Compatible x y) : s.Compatible y x := by
  intro b hb a ha hport
  obtain ⟨rfl, hbound⟩ := h a ha b hb hport.symm
  exact ⟨rfl, hbound⟩

theorem Compatible.grows (hg : s.Grows t) (h : s.Compatible x y) : t.Compatible x y :=
  fun a ha b hb hport => ⟨(h a ha b hb hport).1, hg.bound (h a ha b hb hport).2⟩

theorem Formed.meets_iff (hf : s.Formed) (hx : x ∈ s.socks) (hy : y ∈ s.socks) :
    x.Meets y ↔ ∃ a ∈ x.call, ∃ b ∈ y.call, a.sinPort = b.sinPort := by
  constructor
  · rintro (⟨a, ha, b, hb, hname | hname⟩ | ⟨r, hr, r', hr', n, hn, hn'⟩)
    · exact ⟨a, ha, b, hb, SockAddr.comfdPath_inj.mp hname⟩
    · exact ⟨a, ha, b, hb, SockAddr.shmPathname_inj.mp hname⟩
    · obtain ⟨z, hz, q, hq, hport⟩ := hf.shadow x hx r hr n hn
      obtain ⟨z', hz', q', hq', hport'⟩ := hf.shadow y hy r' hr' n hn'
      obtain rfl : z = z' := Option.some.inj (hz.symm.trans hz')
      obtain rfl : q = q' := Option.some.inj (hq.symm.trans hq')
      exact ⟨r.addr, NetSock.call_of_entry hr, r'.addr, NetSock.call_of_entry hr', hport.symm.trans hport'⟩
  · rintro ⟨a, ha, b, hb, hport⟩
    exact Or.inl ⟨a, ha, b, hb, Or.inl (SockAddr.comfdPath_inj.mpr hport)⟩

theorem Formed.same_iff (hf : s.Formed) :
    (s.socks.Pairwise fun x y => x.Meets y → x.call = y.call ∧ ∃ a ∈ x.call, s.Bound a) ↔
      s.socks.Pairwise s.Compatible := by
  refine List.Pairwise.iff_of_mem fun {x y} hx hy => ?_
  rw [hf.meets_iff hx hy]
  constructor
  · intro h a ha b hb hport
    obtain ⟨hcall, c, hc, hbound⟩ := h ⟨a, ha, b, hb, hport⟩
    obtain rfl : a = b := Option.some.inj (ha.symm.trans (hcall.trans hb))
    obtain rfl : a = c := Option.some.inj (ha.symm.trans hc)
    exact ⟨rfl, hbound⟩
  · rintro h ⟨a, ha, b, hb, hport⟩
    obtain ⟨rfl, hbound⟩ := h a ha b hb hport
    exact ⟨ha.trans hb.symm, a, ha, hbound⟩

/-! ### One step -/

theorem bound_set_iff (hk : s.socks[k]? = some x) (hx : x.bound = none) :
    ({ socks := s.socks.set k x' } : Net).Bound addr ↔ x'.bound = some addr ∨ s.Bound addr := by
  constructor
  · rintro ⟨z, hz, hbound⟩
    rcases mem_set_cases hk hz with rfl | hz
    · exact Or.inl hbound
    · exact Or.inr ⟨z, hz, hbound⟩
  · rintro (hbound | ⟨z, hz, hbound⟩)
    · exact ⟨x', mem_set_self hk, hbound⟩
    · rcases mem_set_of_mem (y := x') hk hz with rfl | hz
      · rw [hx] at hbound
        cases hbound
      · exact ⟨z, hz, hbound⟩

/-- Of the identity, a step that changes one socket has to keep what is said of this one. -/
theorem identity_set_iff (hi : s.Identity) (hf : s.Formed) (hk : s.socks[k]? = some x) (hg : x.Grows x')
    (ht : t = { socks := s.socks.set k x' }) (hft : t.Formed) :
    t.Identity ↔ (∀ z ∈ s.socks.eraseIdx k, t.Compatible x' z) ∧
      (∀ r ∈ x'.entry, r.inherited = true → t.BoundAt r.shadow r.addr) ∧
      ∀ addr ∈ x'.asks, ∃ y ∈ s.socks, y.pid ≠ x.pid ∧ y.serves addr = true := by
  have hgrows : s.Grows t := ht ▸ Grows.of_set hk hg
  have hset : t.socks = s.socks.set k x' := by rw [ht]
  have hself : x' ∈ t.socks := hset ▸ mem_set_self hk
  constructor
  · intro h
    have hsame := hft.same_iff.mp h.same
    rw [hset, pairwise_set_iff Compatible.symm hk] at hsame
    refine ⟨hsame.1, h.inherited x' hself, fun addr haddr => ?_⟩
    obtain ⟨y, hy, hpid, hserves⟩ := h.elsewhere x' hself addr haddr
    rw [hset] at hy
    rcases mem_set_cases hk hy with rfl | hy
    · exact absurd rfl hpid
    · exact ⟨y, hy, hg.pid ▸ hpid, hserves⟩
  · rintro ⟨hsame, hinherited, helse⟩
    have hold := (hf.same_iff.mp hi.same).sublist (List.eraseIdx_sublist s.socks k)
    refine ⟨hft.same_iff.mpr ?_, fun z hz => ?_, fun z hz addr haddr => ?_⟩
    · rw [hset, pairwise_set_iff Compatible.symm hk]
      exact ⟨hsame, hold.imp (Compatible.grows hgrows)⟩
    · rw [hset] at hz
      rcases mem_set_cases hk hz with rfl | hz
      · exact hinherited
      · exact fun r hr hrec => hgrows.boundAt (hi.inherited z hz r hr hrec)
    · obtain ⟨y, hy, hpid, hserves⟩ : ∃ y ∈ s.socks, y.pid ≠ z.pid ∧ y.serves addr = true := by
        rw [hset] at hz
        rcases mem_set_cases hk hz with rfl | hz
        · rw [hg.pid]
          exact helse addr haddr
        · exact hi.elsewhere z hz addr haddr
      obtain ⟨y', hy', hgy⟩ := hgrows.mem hy
      exact ⟨y', hy', hgy.pid ▸ hpid, hgy.serves hserves⟩

/-- The first call on a socket agrees with each call that it meets. -/
theorem compatible_iff_agrees (hk : s.socks[k]? = some x) (hmade : x.stage = .made) (hcall : x'.call = some addr)
    (hbound : t.Bound addr ↔ got = some addr ∨ s.Bound addr) :
    (∀ z ∈ s.socks.eraseIdx k, t.Compatible x' z) ↔ s.Agrees addr got := by
  constructor
  · intro h z hz a ha hport
    rcases (mem_iff_mem_eraseIdx hk).mp hz with rfl | hz
    · rw [NetSock.call_made hmade] at ha
      cases ha
    · obtain ⟨rfl, hb⟩ := h z hz addr hcall a ha hport.symm
      exact ⟨rfl, hbound.mp hb⟩
  · intro h z hz a ha b hb hport
    obtain rfl : addr = a := Option.some.inj (hcall.symm.trans ha)
    obtain ⟨rfl, hb⟩ := h z ((mem_iff_mem_eraseIdx hk).mpr (Or.inr hz)) b hb hport.symm
    exact ⟨rfl, hbound.mpr hb⟩

theorem identity_append (hi : s.Identity) (hf : s.Formed) (pid : Nat) :
    ({ socks := s.socks ++ [{ pid := pid, bound := none, stage := .made }] } : Net).Identity := by
  have hgrows : s.Grows { socks := s.socks ++ [{ pid := pid, bound := none, stage := .made }] } := Grows.of_append _
  refine ⟨(formed_append hf pid).same_iff.mpr ?_, fun x hx r hr hrec => ?_, fun x hx addr haddr => ?_⟩
  · have hold := (hf.same_iff.mp hi.same).imp (Compatible.grows hgrows)
    refine List.pairwise_append.mpr ⟨hold, List.pairwise_singleton _ _, fun x _ y hy a _ b hb => ?_⟩
    rw [List.mem_singleton.mp hy] at hb
    cases hb
  · rcases List.mem_append.mp hx with hx | hx
    · exact hgrows.boundAt (hi.inherited x hx r hr hrec)
    · rw [List.mem_singleton.mp hx] at hr
      cases hr
  · rcases List.mem_append.mp hx with hx | hx
    · obtain ⟨y, hy, hserves⟩ := hi.elsewhere x hx addr haddr
      exact ⟨y, List.mem_append_left _ hy, hserves⟩
    · rw [List.mem_singleton.mp hx] at haddr
      cases haddr

/-- A `bind` that inherits nothing and has not asked. -/
theorem identity_enter_iff {r : NetRec} (hi : s.Identity) (hf : s.Formed) (hk : s.socks[k]? = some x)
    (hmade : x.stage = .made) (hinherited : r.inherited = false) (ht : t = s.enter k x r got) (hft : t.Formed) :
    t.Identity ↔ s.Agrees r.addr got := by
  have hentry := NetSock.entry_made hmade
  have hnone := hf.unbound x (List.mem_of_getElem? hk) hentry
  have hg : x.Grows { x with bound := got, stage := .entered r } :=
    hf.grows_enter hk hentry (by simp [NetSock.call_made hmade])
  have hbound : t.Bound r.addr ↔ got = some r.addr ∨ s.Bound r.addr := by
    rw [ht]
    exact bound_set_iff hk hnone
  rw [identity_set_iff hi hf hk hg ht hft, compatible_iff_agrees hk hmade rfl hbound]
  refine ⟨fun h => h.1, fun h => ⟨h, fun r' hr' hrec => ?_, fun _ h => nomatch h⟩⟩
  cases hr'
  rw [hinherited] at hrec
  cases hrec

theorem identity_request_iff (hi : s.Identity) (hf : s.Formed) (hk : s.socks[k]? = some x) (hmade : x.stage = .made)
    (ht : t = { socks := s.socks.set k { x with stage := .asking addr } }) (hft : t.Formed) :
    t.Identity ↔ s.Agrees addr none ∧ s.ServedElsewhere k addr := by
  have hnone := hf.unbound x (List.mem_of_getElem? hk) (NetSock.entry_made hmade)
  have hg : x.Grows { x with stage := .asking addr } :=
    ⟨rfl, fun _ ha => ha, by simp [NetSock.call_made hmade], by simp [NetSock.entry_made hmade]⟩
  have hbound : t.Bound addr ↔ none = some addr ∨ s.Bound addr := by
    rw [ht, bound_set_iff hk hnone, hnone]
  rw [identity_set_iff hi hf hk hg ht hft, compatible_iff_agrees hk hmade rfl hbound]
  refine and_congr_right fun _ => ⟨fun h z hz => ?_, fun h => ⟨fun _ hr => (nomatch hr), fun a ha => ?_⟩⟩
  · obtain rfl : x = z := Option.some.inj (hk.symm.trans hz)
    exact h.2 addr rfl
  · cases ha
    exact h x hk

/-- A `bind` that has asked meets the same calls as before. -/
theorem identity_answer_iff {r : NetRec} (hi : s.Identity) (hf : s.Formed) (hk : s.socks[k]? = some x)
    (hasking : x.stage = .asking r.addr) (ht : t = s.enter k x r got) (hft : t.Formed) :
    t.Identity ↔ (r.inherited = true → t.BoundAt r.shadow r.addr) := by
  have hentry := NetSock.entry_asking hasking
  have hcall := NetSock.call_asking hasking
  have hg : x.Grows { x with bound := got, stage := .entered r } := hf.grows_enter hk hentry (by simp [hcall])
  have hgrows : s.Grows t := ht ▸ Grows.of_set hk hg
  have hsame := hf.same_iff.mp hi.same
  rw [← set_getElem?_self hk, pairwise_set_iff Compatible.symm hk] at hsame
  rw [identity_set_iff hi hf hk hg ht hft]
  refine ⟨fun h => h.2.1 r rfl, fun h => ⟨fun z hz a ha => ?_, fun r' hr' => ?_, fun _ h => nomatch h⟩⟩
  · exact (hsame.1 z hz).grows hgrows a (hcall.trans ha)
  · cases hr'
    exact h

theorem returned_pos_iff {port : Nat} {first second : Arrival} :
    0 < first.returned port second ↔ 0 < port ∧ (first ≠ .lost ∨ second ≠ .lost) := by
  cases first <;> cases second <;> simp [Arrival.returned]

theorem boundAt_set_iff {shadow : Option Nat} (hk : s.socks[k]? = some x) (hx : x.bound = none)
    (hx' : x'.bound = none) :
    ({ socks := s.socks.set k x' } : Net).BoundAt shadow addr ↔ s.BoundAt shadow addr := by
  refine exists_congr fun n => and_congr_right fun _ => ?_
  by_cases hn : k = n
  · subst hn
    have hset : (s.socks.set k x')[k]? = some x' := List.getElem?_set_self (List.getElem?_eq_some_iff.mp hk).1
    simp [hset, hk, hx, hx']
  · simp [hn]

/-- A `bind` that inherits leaves its own socket unbound. -/
theorem boundAt_enter_iff {r : NetRec} {shadow : Option Nat} (hk : s.socks[k]? = some x) (hx : x.bound = none) :
    (s.enter k x r x.bound).BoundAt shadow addr ↔ s.BoundAt shadow addr :=
  boundAt_set_iff hk hx hx

/-- What `bind` inherits is bound to its address exactly if the first message brings a socket that is. -/
theorem boundAt_recvfd_iff {first : Arrival} {given : Option Nat} (hk : s.socks[k]? = some x) (hx : x.bound = none) :
    s.BoundAt (first.recvfd (some k) none given) addr ↔ first = .full ∧ s.BoundAt given addr := by
  cases first with
  | lost => simp [Arrival.recvfd, BoundAt, hk, hx]
  | bare => simp [Arrival.recvfd, BoundAt]
  | full => simp [Arrival.recvfd]

theorem handsOver_iff {first second : Arrival} {r : NetRec} (hk : s.socks[k]? = some x) (hy : s.socks[i]? = some y)
    (hasking : x.stage = .asking addr) (hentered : y.stage = .entered r) :
    s.HandsOver k i first second ↔
      (0 < first.returned addr.port second → first = .full ∧ s.BoundAt r.shadow addr) := by
  have hasked : s.asked k = some addr := by simp [asked, hk, NetSock.asks, hasking]
  have hshadow : s.shadowOf i = r.shadow := by simp [shadowOf, hy, NetSock.entry_entered hentered]
  rw [returned_pos_iff, and_imp, HandsOver, hasked, hshadow]
  refine ⟨fun h => h addr rfl, fun h a ha => ?_⟩
  cases ha
  exact h

/-- A step keeps the identity exactly if it is proper. -/
theorem step_identity_iff {a : NetAct} (hi : s.Identity) (hf : s.Formed) (hs : s.step a = some t) :
    t.Identity ↔ s.Proper a := by
  have hft := step_formed hf hs
  cases a with
  | socket pid =>
    obtain ⟨-, rfl⟩ := socket_inv hs
    exact iff_of_true (identity_append hi hf pid) trivial
  | bindFirst k addr got =>
    obtain ⟨x, hk, hmade, -, -, -, ht⟩ := bindFirst_inv hs
    exact identity_enter_iff hi hf hk hmade rfl ht hft
  | bindAlone k addr got =>
    obtain ⟨x, hk, hmade, -, -, ht⟩ := bindAlone_inv hs
    exact identity_enter_iff hi hf hk hmade rfl ht hft
  | request k addr =>
    obtain ⟨x, hk, hmade, -, -, ht⟩ := request_inv hs
    exact identity_request_iff hi hf hk hmade ht hft
  | answer k i first second got =>
    obtain ⟨x, y, addr, r, hk, hy, hasking, hentered, -, -, hcase⟩ := answer_inv hs
    have hnone := hf.unbound x (List.mem_of_getElem? hk) (NetSock.entry_asking hasking)
    refine Iff.trans ?_ (handsOver_iff hk hy hasking hentered).symm
    rcases hcase with ⟨hport, ht⟩ | ⟨hport, -, ht⟩
    · rw [identity_answer_iff hi hf hk hasking ht hft, ht]
      refine ⟨fun h _ => ?_, fun h _ => ?_⟩
      · exact (boundAt_recvfd_iff hk hnone).mp ((boundAt_enter_iff hk hnone).mp (h rfl))
      · exact (boundAt_enter_iff hk hnone).mpr ((boundAt_recvfd_iff hk hnone).mpr (h hport))
    · rw [identity_answer_iff hi hf hk hasking ht hft]
      exact ⟨fun _ h => by omega, fun _ h => nomatch h⟩

/-- In every order of the calls of `socket` and `bind`: the identity holds throughout exactly if each step is
    proper. -/
theorem identity_iff (as : List NetAct) :
    netMachine.Throughout Identity { socks := [] } as ↔ netMachine.Steps Proper { socks := [] } as :=
  netMachine.throughout_iff_steps (I := fun s => s.Identity ∧ s.Formed) (fun _ h => h.1)
    (fun _ _ _ h ha hs => ⟨(step_identity_iff h.1 h.2 hs).mpr ha, step_formed h.2 hs⟩)
    (fun _ _ _ h hs hp => (step_identity_iff h.1 h.2 hs).mp hp) as
    ⟨⟨.nil, fun _ h => (nomatch h), fun _ h => (nomatch h)⟩, ⟨fun _ h => (nomatch h), fun _ h => (nomatch h)⟩⟩

instance (s : Net) (addr : SockAddr) : Decidable (s.Bound addr) :=
  inferInstanceAs (Decidable (∃ x ∈ s.socks, x.bound = some addr))

instance (s : Net) (shadow : Option Nat) (addr : SockAddr) : Decidable (s.BoundAt shadow addr) :=
  inferInstanceAs (Decidable (∃ n ∈ shadow, ∃ x ∈ s.socks[n]?, x.bound = some addr))

instance (s : Net) (addr : SockAddr) (got : Option SockAddr) : Decidable (s.Agrees addr got) := by
  unfold Agrees
  infer_instance

instance (s : Net) (k : Nat) (addr : SockAddr) : Decidable (s.ServedElsewhere k addr) := by
  unfold ServedElsewhere
  infer_instance

instance (s : Net) (k i : Nat) (first second : Arrival) : Decidable (s.HandsOver k i first second) := by
  unfold HandsOver
  infer_instance

instance (s : Net) : (a : NetAct) → Decidable (s.Proper a)
  | .socket _ => .isTrue trivial
  | .bindFirst _ addr got | .bindAlone _ addr got => inferInstanceAs (Decidable (s.Agrees addr got))
  | .request .. => inferInstanceAs (Decidable (_ ∧ _))
  | .answer k i first second _ => inferInstanceAs (Decidable (s.HandsOver k i first second))

-- Process 2 takes over 0.0.0.0:8080 from process 1, and 3 from 2.
example : netMachine.Steps Proper { socks := [] }
    [.socket 1, .bindFirst 0 (.inet 8080 0) (some (.inet 8080 0)), .socket 2, .request 1 (.inet 8080 0),
      .answer 1 0 .full .full none, .socket 3, .request 2 (.inet 8080 0), .answer 2 1 .full .full none] := by
  decide

/-- A process that has bound 0.0.0.0:8080 binds [::]:8080 and waits for itself. Another one binds 127.0.0.2:8080 and
    gets the socket of 127.0.0.1:8080. -/
theorem identity_lost :
    (∃ t, netMachine.run { socks := [] }
        [.socket 1, .bindFirst 0 (.inet 8080 0) (some (.inet 8080 0)), .socket 1,
          .request 1 (.inet6 8080 0 0)] = some t ∧
      (∀ y ∈ t.socks, y.pid = 1) ∧ ¬t.Identity) ∧
    ∃ t, netMachine.run { socks := [] }
        [.socket 1, .bindFirst 0 (.inet 8080 0x7f000001) (some (.inet 8080 0x7f000001)), .socket 2,
          .request 1 (.inet 8080 0x7f000002), .answer 1 0 .full .full none] = some t ∧
      t.shadowOf 1 = some 0 ∧ t.BoundAt (some 0) (.inet 8080 0x7f000001) ∧ ¬t.Identity := by
  refine ⟨⟨_, rfl, by decide, fun h => ?_⟩, ⟨_, rfl, rfl, by decide, fun h => ?_⟩⟩
  · obtain ⟨y, hy, hpid, -⟩ := h.elsewhere _ (List.mem_of_getElem? (i := 1) rfl) _ rfl
    revert y
    decide
  · have := h.inherited _ (List.mem_of_getElem? (i := 1) rfl) _ rfl rfl
    revert this
    decide

end Net
end OpenDSU
