import OpenDSU.Net
import OpenDSU.Lib.Places

/-! What each step of `socket` and `bind` does, read off `Net.step` once, and what every step leaves. -/

namespace OpenDSU

variable {s t : Net} {x x' y : NetSock} {k i n : Nat} {addr : SockAddr} {got : Option SockAddr}

/-! ### Names -/

theorem decimal_inj {m n : Nat} : m.repr = n.repr ↔ m = n := by
  refine ⟨fun h => ?_, congrArg _⟩
  have hdigits : Nat.toDigits 10 m = Nat.toDigits 10 n := by simpa using congrArg String.toList h
  simpa using congrArg (Nat.ofDigitChars 10 · 0) hdigits

theorem SockAddr.port_inj {a b : SockAddr} : a.port = b.port ↔ a.sinPort = b.sinPort := BitVec.toNat_inj

/-- Two addresses have one abstract name exactly if they have the same bits at `sin_port`. -/
theorem SockAddr.comfdPath_inj {a b : SockAddr} : a.comfdPath = b.comfdPath ↔ a.sinPort = b.sinPort := by
  rw [← port_inj, ← decimal_inj]
  simp [comfdPath]

theorem SockAddr.shmPathname_inj {a b : SockAddr} : a.shmPathname = b.shmPathname ↔ a.sinPort = b.sinPort := by
  rw [← port_inj, ← decimal_inj]
  simp [shmPathname]

theorem NetSock.serves_iff :
    x.serves addr = true ↔ ∃ r ∈ x.entry, r.named = true ∧ r.addr.sinPort = addr.sinPort := by
  simp [serves, SockAddr.comfdPath_inj, Option.any_eq_true]

/-! ### Stages -/

theorem NetSock.call_made (h : x.stage = .made) : x.call = none := by simp [call, h]

theorem NetSock.call_asking (h : x.stage = .asking addr) : x.call = some addr := by simp [call, h]

theorem NetSock.call_of_entry {r : NetRec} (h : x.entry = some r) : x.call = some r.addr := by
  unfold entry at h
  unfold call
  split at h
  · rename_i r' hr'
    cases h
    rw [hr']
  · cases h

theorem NetSock.entry_made (h : x.stage = .made) : x.entry = none := by simp [entry, h]

theorem NetSock.entry_asking (h : x.stage = .asking addr) : x.entry = none := by simp [entry, h]

theorem NetSock.entry_entered {r : NetRec} (h : x.stage = .entered r) : x.entry = some r := by simp [entry, h]

/-! ### Inversion -/

namespace Net

theorem socket_inv {pid : Nat} (h : s.step (.socket pid) = some t) :
    s.waits pid = false ∧ t = { socks := s.socks ++ [{ pid := pid, bound := none, stage := .made }] } := by
  simp only [step] at h
  cases hw : s.waits pid
  · simp only [hw, Bool.false_eq_true, ↓reduceIte, Option.some.injEq] at h
    exact ⟨rfl, h.symm⟩
  · simp [hw] at h

theorem enterFirst_inv {shadow : Option Nat} {named : Bool} (h : s.enterFirst k x addr shadow named got = some t) :
    got.all addr.grants = true ∧
      t = s.enter k x { addr := addr, shadow := shadow, named := named, inherited := false } got := by
  unfold enterFirst at h
  split at h
  · rename_i hgot
    exact ⟨hgot, (Option.some.inj h).symm⟩
  · cases h

theorem bindFirst_inv (h : s.step (.bindFirst k addr got) = some t) :
    ∃ x, s.socks[k]? = some x ∧ x.stage = .made ∧ s.waits x.pid = false ∧ s.nameHeld addr = false ∧
      got.all addr.grants = true ∧
      t = s.enter k x { addr := addr, shadow := some k, named := true, inherited := false } got := by
  simp only [step] at h
  split at h
  · rename_i x hx
    split at h
    · rename_i hguard
      simp only [Bool.and_eq_true, Bool.not_eq_true', decide_eq_true_eq] at hguard
      obtain ⟨⟨hmade, hwaits⟩, hname⟩ := hguard
      exact ⟨x, hx, hmade, hwaits, hname, enterFirst_inv h⟩
    · cases h
  · cases h

theorem bindAlone_inv (h : s.step (.bindAlone k addr got) = some t) :
    ∃ x, s.socks[k]? = some x ∧ x.stage = .made ∧ s.waits x.pid = false ∧ got.all addr.grants = true ∧
      t = s.enter k x { addr := addr, shadow := some k, named := false, inherited := false } got := by
  simp only [step] at h
  split at h
  · rename_i x hx
    split at h
    · rename_i hguard
      simp only [Bool.and_eq_true, Bool.not_eq_true', decide_eq_true_eq] at hguard
      exact ⟨x, hx, hguard.1, hguard.2, enterFirst_inv h⟩
    · cases h
  · cases h

theorem request_inv (h : s.step (.request k addr) = some t) :
    ∃ x, s.socks[k]? = some x ∧ x.stage = .made ∧ s.waits x.pid = false ∧ s.nameHeld addr = true ∧
      t = { socks := s.socks.set k { x with stage := .asking addr } } := by
  simp only [step] at h
  split at h
  · rename_i x hx
    split at h
    · rename_i hguard
      simp only [Bool.and_eq_true, Bool.not_eq_true', decide_eq_true_eq] at hguard
      obtain ⟨⟨hmade, hwaits⟩, hname⟩ := hguard
      exact ⟨x, hx, hmade, hwaits, hname, (Option.some.inj h).symm⟩
    · cases h
  · cases h

/-- What the two messages tell `bind`, which goes on as an inheriting version or as the first. -/
theorem answer_inv {first second : Arrival} (h : s.step (.answer k i first second got) = some t) :
    ∃ x y addr r, s.socks[k]? = some x ∧ s.socks[i]? = some y ∧ x.stage = .asking addr ∧ y.stage = .entered r ∧
      y.serves addr = true ∧ s.waits y.pid = false ∧
      ((0 < first.returned addr.port second ∧ t = s.enter k x
          { addr := addr, shadow := first.recvfd (some k) none r.shadow,
            named := second.recvfd false false true, inherited := true } x.bound) ∨
        (first.returned addr.port second = 0 ∧ got.all addr.grants = true ∧ t = s.enter k x
          { addr := addr, shadow := first.recvfd (some k) none r.shadow,
            named := second.recvfd false false true, inherited := false } got)) := by
  simp only [step] at h
  split at h
  · rename_i x y hx hy
    split at h
    · rename_i addr r hasking hentered
      split at h
      · rename_i hguard
        simp only [Bool.and_eq_true, Bool.not_eq_true'] at hguard
        refine ⟨x, y, addr, r, hx, hy, hasking, hentered, hguard.1.1, hguard.1.2, ?_⟩
        split at h
        · rename_i hport
          exact Or.inl ⟨hport, (Option.some.inj h).symm⟩
        · rename_i hport
          exact Or.inr ⟨by omega, enterFirst_inv h⟩
      · cases h
    · cases h
  · cases h

end Net

/-! ### Growth -/

/-- What a step leaves of a socket. -/
structure NetSock.Grows (x x' : NetSock) : Prop where
  pid : x'.pid = x.pid
  bound : ∀ a, x.bound = some a → x'.bound = some a
  call : ∀ a, x.call = some a → x'.call = some a
  entry : ∀ r, x.entry = some r → x'.entry = some r

theorem NetSock.Grows.refl (x : NetSock) : x.Grows x := ⟨rfl, fun _ h => h, fun _ h => h, fun _ h => h⟩

theorem NetSock.Grows.serves (h : x.Grows x') (hx : x.serves addr = true) : x'.serves addr = true := by
  obtain ⟨r, hr, hx⟩ := serves_iff.mp hx
  exact serves_iff.mpr ⟨r, h.entry r hr, hx⟩

/-- Every socket of `s` is in `t` at its place, and has grown. -/
def Net.Grows (s t : Net) : Prop :=
  ∀ (n : Nat) (x : NetSock), s.socks[n]? = some x → ∃ x', t.socks[n]? = some x' ∧ x.Grows x'

namespace Net

theorem Grows.of_append (xs : List NetSock) : s.Grows { socks := s.socks ++ xs } :=
  fun _ x hx => ⟨x, by rw [List.getElem?_append_left (List.getElem?_eq_some_iff.mp hx).1, hx], .refl x⟩

theorem Grows.of_set (hk : s.socks[k]? = some x) (hx : x.Grows x') : s.Grows { socks := s.socks.set k x' } := by
  intro n y hy
  rw [List.getElem?_set]
  split
  · rename_i heq
    subst heq
    rw [hk] at hy
    cases hy
    exact ⟨x', by simp [(List.getElem?_eq_some_iff.mp hk).1], hx⟩
  · exact ⟨y, hy, .refl y⟩

theorem Grows.mem (h : s.Grows t) (hx : x ∈ s.socks) : ∃ x' ∈ t.socks, x.Grows x' := by
  obtain ⟨n, hn⟩ := List.getElem?_of_mem hx
  obtain ⟨x', hx', hg⟩ := h n x hn
  exact ⟨x', List.mem_of_getElem? hx', hg⟩

theorem Grows.bound (h : s.Grows t) (hb : s.Bound addr) : t.Bound addr := by
  obtain ⟨x, hx, hb⟩ := hb
  obtain ⟨x', hx', hg⟩ := h.mem hx
  exact ⟨x', hx', hg.bound addr hb⟩

theorem Grows.boundAt {shadow : Option Nat} (h : s.Grows t) (hb : s.BoundAt shadow addr) : t.BoundAt shadow addr := by
  obtain ⟨n, hn, x, hx, hb⟩ := hb
  obtain ⟨x', hx', hg⟩ := h n x hx
  exact ⟨n, hn, x', hx', hg.bound addr hb⟩

/-! ### Formed states -/

/-- What every step keeps. -/
structure Formed (s : Net) : Prop where
  /-- The kernel binds a socket at the end of its `bind`. -/
  unbound : ∀ x ∈ s.socks, x.entry = none → x.bound = none
  /-- A `shadowfd` is a socket of a record with the same port. -/
  shadow : ∀ x ∈ s.socks, ∀ r ∈ x.entry, ∀ n ∈ r.shadow,
    ∃ y ∈ s.socks[n]?, ∃ r' ∈ y.entry, r'.addr.sinPort = r.addr.sinPort

theorem formed_append (hf : s.Formed) (pid : Nat) :
    ({ socks := s.socks ++ [{ pid := pid, bound := none, stage := .made }] } : Net).Formed where
  unbound x hx hentry := by
    rcases List.mem_append.mp hx with hx | hx
    · exact hf.unbound x hx hentry
    · rw [List.mem_singleton.mp hx]
  shadow x hx r hr n hn := by
    rcases List.mem_append.mp hx with hx | hx
    · obtain ⟨y, hy, r', hr', hport⟩ := hf.shadow x hx r hr n hn
      obtain ⟨y', hy', hg⟩ := Grows.of_append _ n y hy
      exact ⟨y', hy', r', hg.entry r' hr', hport⟩
    · rw [List.mem_singleton.mp hx] at hr
      cases hr

theorem formed_set (hf : s.Formed) (hk : s.socks[k]? = some x) (hg : x.Grows x')
    (hbound : x'.entry = none → x'.bound = none)
    (hshadow : ∀ r ∈ x'.entry, ∀ n ∈ r.shadow,
      n = k ∨ ∃ y ∈ s.socks[n]?, ∃ r' ∈ y.entry, r'.addr.sinPort = r.addr.sinPort) :
    ({ socks := s.socks.set k x' } : Net).Formed where
  unbound z hz hentry := by
    rcases mem_set_cases hk hz with rfl | hz
    · exact hbound hentry
    · exact hf.unbound z hz hentry
  shadow z hz r hr n hn := by
    have old : (∃ y ∈ s.socks[n]?, ∃ r' ∈ y.entry, r'.addr.sinPort = r.addr.sinPort) →
        ∃ y ∈ (s.socks.set k x')[n]?, ∃ r' ∈ y.entry, r'.addr.sinPort = r.addr.sinPort := by
      rintro ⟨y, hy, r', hr', hport⟩
      obtain ⟨y', hy', hg'⟩ := Grows.of_set hk hg n y hy
      exact ⟨y', hy', r', hg'.entry r' hr', hport⟩
    rcases mem_set_cases hk hz with rfl | hz
    · rcases hshadow r hr n hn with rfl | h
      · exact ⟨z, by simp [(List.getElem?_eq_some_iff.mp hk).1], r, hr, rfl⟩
      · exact old h
    · exact old (hf.shadow z hz r hr n hn)

/-- The socket that `bind` works on grows into its record. -/
theorem Formed.grows_enter {r : NetRec} (hf : s.Formed) (hk : s.socks[k]? = some x) (hentry : x.entry = none)
    (hcall : ∀ a, x.call = some a → a = r.addr) : x.Grows { x with bound := got, stage := .entered r } where
  pid := rfl
  bound a ha := by
    rw [hf.unbound x (List.mem_of_getElem? hk) hentry] at ha
    cases ha
  call a ha := by rw [hcall a ha]; rfl
  entry r' hr' := by
    rw [hentry] at hr'
    cases hr'

theorem formed_enter {r : NetRec} (hf : s.Formed) (hk : s.socks[k]? = some x) (hentry : x.entry = none)
    (hcall : ∀ a, x.call = some a → a = r.addr)
    (hshadow : ∀ n ∈ r.shadow, n = k ∨ ∃ y ∈ s.socks[n]?, ∃ r' ∈ y.entry, r'.addr.sinPort = r.addr.sinPort) :
    (s.enter k x r got).Formed := by
  refine formed_set hf hk (hf.grows_enter hk hentry hcall) (fun h => nomatch h) fun r' hr' => ?_
  cases hr'
  exact hshadow

/-- The `shadowfd` after both messages: the own socket, or that of the record that answers. -/
theorem Formed.shadow_answer {r : NetRec} (hf : s.Formed) (k : Nat) (first : Arrival) (hy : s.socks[i]? = some y)
    (hentered : y.entry = some r) (hserves : y.serves addr = true) :
    ∀ n ∈ first.recvfd (some k) none r.shadow,
      n = k ∨ ∃ z ∈ s.socks[n]?, ∃ r' ∈ z.entry, r'.addr.sinPort = addr.sinPort := by
  obtain ⟨r', hr', -, hport⟩ := NetSock.serves_iff.mp hserves
  obtain rfl : r = r' := Option.some.inj (hentered.symm.trans hr')
  intro n hn
  cases first with
  | lost => exact Or.inl (Option.some.inj hn).symm
  | bare => cases hn
  | full =>
    obtain ⟨z, hz, r', hr', hsame⟩ := hf.shadow y (List.mem_of_getElem? hy) r hentered n hn
    exact Or.inr ⟨z, hz, r', hr', hsame.trans hport⟩

theorem step_formed {a : NetAct} (hf : s.Formed) (hs : s.step a = some t) : t.Formed := by
  cases a with
  | socket pid =>
    obtain ⟨-, rfl⟩ := socket_inv hs
    exact formed_append hf pid
  | bindFirst k addr got =>
    obtain ⟨x, hk, hmade, -, -, -, rfl⟩ := bindFirst_inv hs
    exact formed_enter hf hk (NetSock.entry_made hmade) (by simp [NetSock.call_made hmade])
      fun n hn => Or.inl (Option.some.inj hn).symm
  | bindAlone k addr got =>
    obtain ⟨x, hk, hmade, -, -, rfl⟩ := bindAlone_inv hs
    exact formed_enter hf hk (NetSock.entry_made hmade) (by simp [NetSock.call_made hmade])
      fun n hn => Or.inl (Option.some.inj hn).symm
  | request k addr =>
    obtain ⟨x, hk, hmade, -, -, rfl⟩ := request_inv hs
    have hnone := hf.unbound x (List.mem_of_getElem? hk) (NetSock.entry_made hmade)
    refine formed_set hf hk ?_ (fun _ => hnone) (fun _ h => nomatch h)
    exact ⟨rfl, fun _ ha => ha, by simp [NetSock.call_made hmade], by simp [NetSock.entry_made hmade]⟩
  | answer k i first second got =>
    obtain ⟨x, y, addr, r, hk, hy, hasking, hentered, hserves, -, hcase⟩ := answer_inv hs
    have hcall : ∀ a, x.call = some a → a = addr := by
      simp [NetSock.call_asking hasking]
    have hshadow := hf.shadow_answer k first hy (NetSock.entry_entered hentered) hserves
    rcases hcase with ⟨-, rfl⟩ | ⟨-, -, rfl⟩
    · exact formed_enter hf hk (NetSock.entry_asking hasking) hcall hshadow
    · exact formed_enter hf hk (NetSock.entry_asking hasking) hcall hshadow

end Net

end OpenDSU
