import OpenDSU.Loops
import OpenDSU.Theorems.PollArray

/-! What `dsu_pre_poll` makes of the caller's array: a filter and a map that keep the order, done in place by the
loops of `dsu_compress_fds`. -/

namespace OpenDSU

variable {K : Kernel} {binds : List DsuSocket} {w : World} {fds : List PollFd}

/-! ### The loops -/

/-- A state of the nested loops with the types of the source. -/
def CompressFds.ofCompacting (s : Compacting PollFd) : CompressFds where
  test :=
    match s.cursor with
    | .scan i => .outer i
    | .shift i j => .inner i j
  nfds := s.bound
  fds := s.buf

theorem toNfds_natCast {i : Nat} (h : i < 2 ^ 64) : toNfds i = i := by
  unfold toNfds
  omega

/-- One pass of the loops of `dsu_compress_fds` is one pass of a compaction. -/
theorem compressPass_eq {n : Nat} (hn : n < 2 ^ 64) {s : Compacting PollFd} (hs : s.Within n) :
    compressPass (.ofCompacting s) =
      (compactPass (fun a b => { a with fd := b.fd, events := b.events }) (·.fd == -1) id 1 s).map
        CompressFds.ofCompacting := by
  obtain ⟨cursor, bound, buf⟩ := s
  cases cursor with
  | scan i =>
    obtain ⟨hbound, hi⟩ := hs
    simp only at hbound hi
    simp only [compressPass, CompressFds.ofCompacting, compactPass, toNfds_natCast (show i < 2 ^ 64 by omega)]
    by_cases htest : i < bound
    · rw [if_pos htest, if_pos htest]
      by_cases hd : (buf i).fd = -1 <;> simp [hd, CompressFds.ofCompacting]
    · rw [if_neg htest, if_neg htest]
      rfl
  | shift i j =>
    obtain ⟨hbound, hij, hi, hj⟩ := hs
    simp only at hbound hij hi hj
    have hnext : ((j : Int) + 1).toNat = j + 1 := by omega
    simp only [compressPass, CompressFds.ofCompacting, compactPass, toNfds_natCast (show j < 2 ^ 64 by omega)]
    by_cases htest : j < bound
    · rw [if_pos htest, if_pos (by omega)]
      simp [hnext, CompressFds.ofCompacting]
    · have hlower : (bound + (2 ^ 64 - 1)) % 2 ^ 64 = bound - 1 := by omega
      rw [if_neg htest, if_neg (by omega), hlower]
      simp [CompressFds.ofCompacting]

/-- `dsu_compress_fds` at its start. -/
def compressStart (fds : List PollFd) : CompressFds :=
  { test := .outer 0, nfds := fds.length, fds := pollArray fds }

theorem compressStart_within (fds : List PollFd) :
    Compacting.Within fds.length ⟨.scan 0, fds.length, pollArray fds⟩ :=
  ⟨Nat.le_refl _, Nat.zero_le _⟩

theorem compress_ends (h : fds.length < 2 ^ 64) :
    let r := dsuCompressFds (pollArray fds) fds.length
    Ends compressPass (compressStart fds) { test := .outer r.1, nfds := r.1, fds := r.2 } := by
  have hends := compact_ends (fun a b => { a with fd := b.fd, events := b.events }) (·.fd == -1) id 1 0 fds.length
    (pollArray fds)
  rw [Nat.zero_add] at hends
  exact hends.map (fun _ _ hs => Compacting.Within.pass (Nat.le_refl 1) hs) (fun _ => compressPass_eq h)
    (compressStart_within fds)

/-- The counter never grows, and is lowered only while it is positive. -/
theorem compress_counter (h : fds.length < 2 ^ 64) {s : CompressFds} (hs : Visits compressPass (compressStart fds) s) :
    s.nfds ≤ fds.length ∧ ∀ i j, s.test = .inner i j → 0 < s.nfds := by
  obtain ⟨⟨cursor, bound, buf⟩, rfl, hbound, hcursor⟩ :=
    Visits.of_map (fun _ _ hs => Compacting.Within.pass (Nat.le_refl 1) hs) (fun _ => compressPass_eq h)
      (compressStart_within fds) hs
  refine ⟨hbound, fun i j htest => ?_⟩
  cases cursor with
  | scan i => cases htest
  | shift i j =>
    simp only at hcursor
    change 0 < bound
    omega

/-! ### The entries that are kept -/

/-- The outcome of the lock attempt for an entry. -/
def prePollAccess (K : Kernel) (e : PollFd) (st : List DsuSocket × World) : Access :=
  match dsuSocketsSearchFd st.1 e.fd with
  | some r => if r.monitoring then (tryMonitor K r false st.2).1 else .refused
  | none => .free

/-- The outcomes for the whole array, each after the attempts before it. -/
def prePollAccesses (K : Kernel) : List PollFd → List DsuSocket × World → List Access
  | [], _ => []
  | e :: fds, st => prePollAccess K e st :: prePollAccesses K fds (dsuPrePollEntry K e st).2

/-- The descriptor and the events that the kernel is asked for in place of an entry, if any. -/
def pollEntry (binds : List DsuSocket) (e : PollFd) (access : Access) : Option (Int × Nat) :=
  match dsuSocketsSearchFd binds e.fd with
  | none => if e.fd = -1 then none else some (e.fd, e.events)
  | some r => if r.monitoring ∧ access ≠ .refused ∧ r.shadowfd ≠ -1 then some (r.shadowfd, e.events) else none

/-- A record but for its lock. -/
def DsuSocket.unlocked (r : DsuSocket) : DsuSocket := { r with locked := false }

theorem search_unlocked (binds : List DsuSocket) (fd : Int) :
    (dsuSocketsSearchFd binds fd).map DsuSocket.unlocked = dsuSocketsSearchFd (binds.map DsuSocket.unlocked) fd := by
  unfold dsuSocketsSearchFd
  rw [List.find?_map]
  rfl

theorem pollEntry_congr {binds' : List DsuSocket}
    (h : binds'.map DsuSocket.unlocked = binds.map DsuSocket.unlocked) (e : PollFd) (access : Access) :
    pollEntry binds' e access = pollEntry binds e access := by
  have hfind : (dsuSocketsSearchFd binds' e.fd).map DsuSocket.unlocked =
      (dsuSocketsSearchFd binds e.fd).map DsuSocket.unlocked := by
    rw [search_unlocked, search_unlocked, h]
  unfold pollEntry
  cases hr' : dsuSocketsSearchFd binds' e.fd with
  | none =>
    rw [hr', Option.map_none, eq_comm, Option.map_eq_none_iff] at hfind
    rw [hfind]
  | some r' =>
    rw [hr', Option.map_some, eq_comm, Option.map_eq_some_iff] at hfind
    obtain ⟨r, hr, hsame⟩ := hfind
    have hmonitoring := congrArg DsuSocket.monitoring hsame
    have hshadowfd := congrArg DsuSocket.shadowfd hsame
    change r.monitoring = r'.monitoring at hmonitoring
    change r.shadowfd = r'.shadowfd at hshadowfd
    rw [hr]
    simp only [hmonitoring, hshadowfd]

theorem dsuPrePollEntry_unlocked (e : PollFd) (st : List DsuSocket × World) :
    (dsuPrePollEntry K e st).2.1.map DsuSocket.unlocked = st.1.map DsuSocket.unlocked := by
  unfold dsuPrePollEntry
  simp only
  split
  · rfl
  · split
    · cases (tryMonitor K _ false st.2).1 with
      | refused => rfl
      | free => rfl
      | locked => exact map_dsuSocketsUpdate (g := DsuSocket.unlocked) (f := ({ · with locked := true })) (fun _ => rfl) st.1
    · rfl

/-- The descriptor and the events of an entry, as far as the entry is kept. -/
def PollFd.asked (e : PollFd) : Option (Int × Nat) := if e.fd = -1 then none else some (e.fd, e.events)

theorem dsuPrePollEntry_asked (e : PollFd) (st : List DsuSocket × World) :
    (dsuPrePollEntry K e st).1.asked = pollEntry st.1 e (prePollAccess K e st) := by
  unfold dsuPrePollEntry pollEntry prePollAccess PollFd.asked
  simp only
  cases dsuSocketsSearchFd st.1 e.fd with
  | none => rfl
  | some r =>
    simp only
    by_cases hm : r.monitoring = true
    · simp only [if_pos hm]
      cases (tryMonitor K r false st.2).1 <;> simp [hm]
    · simp [hm]

theorem walk_prePollEntry_asked_map (fds : List PollFd) (st : List DsuSocket × World)
    (h : st.1.map DsuSocket.unlocked = binds.map DsuSocket.unlocked) :
    (walk (dsuPrePollEntry K) fds st).1.map PollFd.asked =
      (fds.zip (prePollAccesses K fds st)).map fun x => pollEntry binds x.1 x.2 := by
  induction fds generalizing st with
  | nil => rfl
  | cons e fds ih =>
    rw [walk_cons, prePollAccesses, List.zip_cons_cons, List.map_cons, List.map_cons, dsuPrePollEntry_asked,
      pollEntry_congr h, ih _ ((dsuPrePollEntry_unlocked e st).trans h)]

theorem walk_prePollEntry_asked (fds : List PollFd) (st : List DsuSocket × World)
    (h : st.1.map DsuSocket.unlocked = binds.map DsuSocket.unlocked) :
    (walk (dsuPrePollEntry K) fds st).1.filterMap PollFd.asked =
      (fds.zip (prePollAccesses K fds st)).filterMap fun x => pollEntry binds x.1 x.2 := by
  have hmap := congrArg (List.filterMap id) (walk_prePollEntry_asked_map (K := K) fds st h)
  rwa [List.filterMap_map, List.filterMap_map] at hmap

theorem filter_asked (fds : List PollFd) :
    (fds.map fun e => (e.fd, e.events)).filter (fun a => !(a.1 == -1)) = fds.filterMap PollFd.asked := by
  induction fds with
  | nil => rfl
  | cons e fds ih => by_cases he : e.fd = -1 <;> simp [PollFd.asked, he, ih]

/-- Compression keeps descriptors and events together, in their order. -/
theorem dsuCompressFds_asked (fds : List PollFd) :
    let r := dsuCompressFds (pollArray fds) fds.length
    r.1 = (fds.filterMap PollFd.asked).length ∧
      slice (fun i => ((r.2 i).fd, (r.2 i).events)) 0 r.1 = fds.filterMap PollFd.asked := by
  let part := fun e : PollFd => (e.fd, e.events)
  have hmove : ∀ a b : PollFd, part { a with fd := b.fd, events := b.events } = part b := fun _ _ => rfl
  have hdrop : ∀ a : PollFd, (a.fd == -1) = ((part a).1 == -1) := fun _ => rfl
  have hkeep : ∀ a : PollFd, part (id a) = id (part a) := fun _ => rfl
  have h := compact_spec 1 part (·.1 == -1) id hmove hdrop hkeep 0 fds.length (pollArray fds)
  rw [slice_comp, show slice (pollArray fds) 0 fds.length = fds from slice_getD fds _, filter_asked, List.map_id] at h
  obtain ⟨hlen, hslice, -⟩ := h
  rw [Nat.zero_add] at hlen
  refine ⟨hlen, ?_⟩
  rw [← hlen] at hslice
  exact hslice

/-! ### The translation -/

/-- The loops of `dsu_compress_fds` end on the array that `dsu_pre_poll` gives them, without the counter ever passing
below 0, and leave the entries that `pollEntry` keeps, in their order. -/
theorem prePoll_filterMap (fds : List PollFd) (binds : List DsuSocket) (w : World) (h : fds.length < nfdsMax) :
    let start := compressStart (walk (dsuPrePollEntry K) fds (binds, w)).1
    let (n, out) := (dsuPrePoll K fds binds w).1
    let kept := (fds.zip (prePollAccesses K fds (binds, w))).filterMap fun x => pollEntry binds x.1 x.2
    (Ends compressPass start { test := .outer n, nfds := n, fds := out } ∧
      ∀ s, Visits compressPass start s → s.nfds ≤ fds.length ∧ ∀ i j, s.test = .inner i j → 0 < s.nfds) ∧
    n = kept.length ∧ slice (fun i => ((out i).fd, (out i).events)) 0 n = kept := by
  have hlen : (walk (dsuPrePollEntry K) fds (binds, w)).1.length = fds.length :=
    (walk_prePollEntry_fd fds (binds, w) (rfl : _ = binds.map DsuSocket.names)).length_eq.symm
  have hsmall : (walk (dsuPrePollEntry K) fds (binds, w)).1.length < 2 ^ 64 := by
    rw [hlen]
    exact h.trans (by decide)
  refine ⟨⟨compress_ends hsmall, fun s hs => ?_⟩, ?_⟩
  · rw [← hlen]
    exact compress_counter hsmall hs
  · rw [← walk_prePollEntry_asked fds (binds, w) rfl]
    exact dsuCompressFds_asked _

/-- Entries without a descriptor before, between and behind a bound socket and a connection. -/
def scattered : List PollFd :=
  [⟨-1, pollin, 0⟩, ⟨3, pollin, 0⟩, ⟨-1, pollin, 0⟩, ⟨-1, pollin, 0⟩, ⟨7, 4, 0⟩, ⟨-1, pollin, 0⟩]

theorem prePoll_filterMap_scattered : ∃ p, (procMachine soloKernel).run .loaded [.socket, .bind 3 8080] = some p ∧
    let r := (dsuPrePoll soloKernel scattered p.binds p.world).1
    r.1 = 2 ∧ slice (fun i => ((r.2 i).fd, (r.2 i).events)) 0 r.1 = [(3, pollin), (7, 4)] :=
  ⟨_, rfl, (prePoll_filterMap scattered _ _ (by decide)).2⟩

end OpenDSU
