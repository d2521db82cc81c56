import OpenDSU.Theorems.PollFilter

/-! Which elements of its array `_fds`, of `FD_SETSIZE` entries, `ppoll` reads or writes. -/

namespace OpenDSU

variable {K : Kernel} {p : Proc} {fds l : List PollFd}

/-- An index of an array of `FD_SETSIZE` entries, or the number of a bit of an `fd_set`. -/
def InSetsize (i : Int) : Prop := 0 ≤ i ∧ i < nfdsMax

instance : DecidablePred InSetsize := fun _ => inferInstanceAs (Decidable (_ ∧ _))

/-- The elements that the test at `s` and what follows it read or write. -/
def CompressFds.touched (s : CompressFds) : List Int :=
  match s.test with
  | .outer i => if toNfds i < s.nfds then [i] else []
  | .inner _ j => if toNfds j < s.nfds then [j, j + 1] else []

/-- Where the entries for internal descriptors are written. -/
def appendedAt : List Int → Nat × (Nat → PollFd) → List Nat
  | [], _ => []
  | fd :: fds, a => (if a.1 < nfdsMax then [a.1] else []) ++ appendedAt fds (pollAppend a fd)

/-- What `dsu_sniff_conn_poll` writes. -/
def sniffedAt (r : DsuSocket) (a : Nat × (Nat → PollFd)) : List Nat := appendedAt r.watched a

/-- `ppoll`, past the termination detection, reads or writes an element of `_fds`. What follows the kernel wait only
reads what the wait was given. -/
inductive PollTouches (K : Kernel) (p : Proc) (fds : List PollFd) : Int → Prop
  | memset (i : Nat) (h : i < nfdsMax) : PollTouches K p fds i
  | memcpy (i : Nat) (h : i < fds.length) : PollTouches K p fds i
  | prePoll (i : Nat) (h : i < fds.length) : PollTouches K p fds i
  | compress {s : CompressFds} (hs : Visits compressPass (compressStart (pollTranslated K p fds)) s) {i : Int}
    (h : i ∈ s.touched) : PollTouches K p fds i
  | sniff (i : Nat)
    (h : i ∈ walkNotes dsuSniffConnPoll sniffedAt (dsuPrePoll K fds p.binds p.world).2.1
      (dsuPrePoll K fds p.binds p.world).1) : PollTouches K p fds i
  | wait (i : Nat) (h : i < (pollAsk K p fds).nfds) : PollTouches K p fds i

/-- No entry of the caller's array is dropped. -/
def KeepsAll (K : Kernel) (p : Proc) (fds : List PollFd) : Prop :=
  ∀ x ∈ fds.zip (prePollAccesses K fds (p.binds, p.world)), (pollEntry p.binds x.1 x.2).isSome = true

/-- The caller's array has no more entries than `_fds`, and fewer if one is dropped. -/
def FitsArray (K : Kernel) (p : Proc) (fds : List PollFd) : Prop :=
  fds.length ≤ nfdsMax ∧ (fds.length = nfdsMax → KeepsAll K p fds)

/-! ### The loops of `dsu_compress_fds` -/

/-- The loops look at most one element past the entries that they are given. -/
theorem compress_touched (h : l.length < 2 ^ 64) {s : CompressFds} (hs : Visits compressPass (compressStart l) s)
    {i : Int} (hi : i ∈ s.touched) : 0 ≤ i ∧ i ≤ l.length := by
  obtain ⟨⟨cursor, bound, buf⟩, rfl, hbound, hcursor⟩ :=
    Visits.of_map (fun _ _ hs => Compacting.Within.pass (Nat.le_refl 1) hs) (fun _ => compressPass_eq h)
      (compressStart_within l) hs
  unfold CompressFds.touched at hi
  cases cursor with
  | scan k =>
    simp only at hbound hcursor
    simp only [CompressFds.ofCompacting, toNfds_natCast (show k < 2 ^ 64 by omega)] at hi
    split at hi
    · have := List.mem_singleton.mp hi
      omega
    · cases hi
  | shift k j =>
    obtain ⟨hkj, hk, hj⟩ := hcursor
    simp only at hbound hk hj
    simp only [CompressFds.ofCompacting, toNfds_natCast (show j < 2 ^ 64 by omega)] at hi
    split at hi
    · simp only [List.mem_cons, List.not_mem_nil, or_false] at hi
      omega
    · cases hi

/-- A pass of the outer loop. -/
theorem compressPass_outer {k n : Nat} (hk : k < 2 ^ 64) (buf : Nat → PollFd) :
    compressPass { test := .outer k, nfds := n, fds := buf } =
      if k < n then
        if (buf k).fd = -1 then some { test := .inner k k, nfds := n, fds := buf }
        else some { test := .outer (k + 1 : Nat), nfds := n, fds := buf }
      else none := by
  simp only [compressPass, toNfds_natCast hk, Int.toNat_natCast, Int.natCast_succ]

theorem compressPass_inner {j n : Nat} (k : Nat) (hj : j < 2 ^ 64) (hn : j < n) (buf : Nat → PollFd) :
    ∃ buf', compressPass { test := .inner k j, nfds := n, fds := buf } =
      some { test := .inner k (j + 1 : Nat), nfds := n, fds := buf' } := by
  simp only [compressPass, toNfds_natCast hj, if_pos hn, Int.natCast_succ]
  exact ⟨_, rfl⟩

/-- Up to the first entry without a descriptor only the index moves. -/
theorem compress_scans (h : l.length < 2 ^ 64) {k : Nat} (hk : k ≤ l.length)
    (hkept : ∀ i < k, (pollArray l i).fd ≠ -1) :
    Visits compressPass (compressStart l) { test := .outer k, nfds := l.length, fds := pollArray l } := by
  induction k with
  | zero => exact .refl
  | succ k ih =>
    refine .tail (ih (by omega) fun i hi => hkept i (by omega)) ?_
    rw [compressPass_outer (by omega), if_pos (by omega), if_neg (hkept k (by omega))]

theorem compress_shifts (h : l.length < 2 ^ 64) {k m : Nat} (hm : k + m ≤ l.length)
    (hk : Visits compressPass (compressStart l) { test := .inner k k, nfds := l.length, fds := pollArray l }) :
    ∃ buf, Visits compressPass (compressStart l)
      { test := .inner k (k + m : Nat), nfds := l.length, fds := buf } := by
  induction m with
  | zero => exact ⟨_, hk⟩
  | succ m ih =>
    obtain ⟨buf, hbuf⟩ := ih (by omega)
    obtain ⟨buf', hpass⟩ := compressPass_inner k (show k + m < 2 ^ 64 by omega) (show k + m < l.length by omega) buf
    exact ⟨buf', .tail hbuf hpass⟩

/-- They do look at it where an entry is dropped. -/
theorem compress_looks_ahead (h : l.length < 2 ^ 64) (hdrop : ∃ k, k < l.length ∧ (pollArray l k).fd = -1) :
    ∃ s, Visits compressPass (compressStart l) s ∧ (l.length : Int) ∈ s.touched := by
  obtain ⟨hk, hfd⟩ := Nat.find_spec hdrop
  have hkept : ∀ i < Nat.find hdrop, (pollArray l i).fd ≠ -1 := fun i hi he =>
    Nat.find_min hdrop hi ⟨hi.trans hk, he⟩
  generalize Nat.find hdrop = k at hk hfd hkept
  have hinner : Visits compressPass (compressStart l) { test := .inner k k, nfds := l.length, fds := pollArray l } := by
    refine .tail (compress_scans h hk.le hkept) ?_
    rw [compressPass_outer (by omega), if_pos hk, if_pos hfd]
  obtain ⟨buf, hbuf⟩ := compress_shifts (m := l.length - 1 - k) h (by omega) hinner
  refine ⟨_, hbuf, ?_⟩
  simp only [CompressFds.touched, toNfds_natCast (show k + (l.length - 1 - k) < 2 ^ 64 by omega)]
  rw [if_pos (by omega)]
  simp only [List.mem_cons, List.not_mem_nil, or_false]
  omega

/-- Where all entries have descriptors, the inner loop is not entered. -/
theorem compress_keeps (h : l.length < 2 ^ 64) (hkept : ∀ k < l.length, (pollArray l k).fd ≠ -1) {s : CompressFds}
    (hs : Visits compressPass (compressStart l) s) {i : Int} (hi : i ∈ s.touched) : 0 ≤ i ∧ i < l.length := by
  have hscan : ∃ k : Nat, k ≤ l.length ∧ s = { test := .outer k, nfds := l.length, fds := pollArray l } := by
    refine hs.invariant (I := fun s => ∃ k : Nat, k ≤ l.length ∧
      s = { test := .outer k, nfds := l.length, fds := pollArray l }) ?_ ⟨0, Nat.zero_le _, rfl⟩
    rintro s t ⟨k, hk, rfl⟩ ht
    rw [compressPass_outer (by omega)] at ht
    split at ht
    · rename_i hlt
      rw [if_neg (hkept k hlt)] at ht
      exact ⟨k + 1, hlt, (Option.some.inj ht).symm⟩
    · cases ht
  obtain ⟨k, hk, rfl⟩ := hscan
  simp only [CompressFds.touched, toNfds_natCast (show k < 2 ^ 64 by omega)] at hi
  split at hi
  · have := List.mem_singleton.mp hi
    omega
  · cases hi

/-! ### The entries of the caller -/

theorem keepsAll_iff : KeepsAll K p fds ↔
    ∀ k < (pollTranslated K p fds).length, (pollArray (pollTranslated K p fds) k).fd ≠ -1 := by
  have hsome (e : PollFd) : e.asked.isSome = true ↔ e.fd ≠ -1 := by
    unfold PollFd.asked
    split <;> simp [*]
  have hmap := walk_prePollEntry_asked_map (K := K) fds (p.binds, p.world) (rfl : _ = p.binds.map DsuSocket.unlocked)
  have hkeeps : KeepsAll K p fds ↔ ∀ e ∈ pollTranslated K p fds, e.fd ≠ -1 := by
    simp only [← hsome]
    unfold KeepsAll
    rw [← List.forall_mem_map (P := fun o : Option (Int × Nat) => o.isSome = true), ← hmap, List.forall_mem_map]
    rfl
  rw [hkeeps, List.forall_mem_iff_getElem]
  refine forall_congr' fun k => forall_congr' fun hk => ?_
  rw [pollArray, List.getD_eq_getElem?_getD, List.getElem?_eq_getElem hk, Option.getD_some]

/-! ### The entries for internal descriptors -/

theorem appendedAt_lt (ds : List Int) (a : Nat × (Nat → PollFd)) : ∀ i ∈ appendedAt ds a, i < nfdsMax := by
  induction ds generalizing a with
  | nil => simp [appendedAt]
  | cons d ds ih =>
    refine List.forall_mem_append.mpr ⟨fun i hi => ?_, ih _⟩
    split at hi
    · rename_i hroom
      exact List.mem_singleton.mp hi ▸ hroom
    · cases hi

theorem foldl_pollAppend_le (ds : List Int) {a : Nat × (Nat → PollFd)} (h : a.1 ≤ nfdsMax) :
    (ds.foldl pollAppend a).1 ≤ nfdsMax := by
  induction ds generalizing a with
  | nil => exact h
  | cons d ds ih =>
    refine ih ?_
    unfold pollAppend
    split
    · assumption
    · exact h

theorem walk_sniffConnPoll_le (l : List DsuSocket) {a : Nat × (Nat → PollFd)} (h : a.1 ≤ nfdsMax) :
    (walk dsuSniffConnPoll l a).2.1 ≤ nfdsMax := by
  induction l generalizing a with
  | nil => exact h
  | cons r l ih =>
    rw [walk_cons]
    refine ih ?_
    rw [dsuSniffConnPoll_eq]
    exact foldl_pollAppend_le r.watched h

/-! ### The array -/

/-- `ppoll` keeps to the elements of `_fds` exactly if the caller's array fits. -/
theorem pollTouches_iff : (∀ i, PollTouches K p fds i → InSetsize i) ↔ FitsArray K p fds := by
  have hlen := pollTranslated_length K p fds
  have hnat {i : Nat} (hi : i < nfdsMax) : InSetsize i := ⟨Int.natCast_nonneg i, Int.ofNat_lt.mpr hi⟩
  constructor
  · intro h
    have hle : fds.length ≤ nfdsMax := by
      by_contra hgt
      have := (h _ (.memcpy nfdsMax (by omega))).2
      omega
    refine ⟨hle, fun hfull => keepsAll_iff.mpr fun k hk hfd => ?_⟩
    have hsmall : (pollTranslated K p fds).length < 2 ^ 64 := by
      rw [hlen, hfull]
      decide
    obtain ⟨s, hs, hi⟩ := compress_looks_ahead hsmall ⟨k, hk, hfd⟩
    have := (h _ (.compress hs hi)).2
    omega
  · rintro ⟨hle, hfull⟩ i hi
    have hsmall : (pollTranslated K p fds).length < 2 ^ 64 := by
      rw [hlen]
      exact hle.trans_lt (by decide)
    cases hi with
    | memset i hi => exact hnat hi
    | memcpy i hi => exact hnat (hi.trans_le hle)
    | prePoll i hi => exact hnat (hi.trans_le hle)
    | compress hs hi =>
      by_cases hlt : fds.length < nfdsMax
      · have := compress_touched hsmall hs hi
        exact ⟨this.1, by omega⟩
      · have := compress_keeps hsmall (keepsAll_iff.mp (hfull (by omega))) hs hi
        exact ⟨this.1, by omega⟩
    | sniff i hi =>
      exact hnat (forall_mem_walkNotes (Q := fun _ => True) (fun r a _ => appendedAt_lt r.watched a) _ _
        (fun _ _ => trivial) i hi)
    | wait i hi =>
      have hkept : (pollKept K p fds) ≤ nfdsMax := (pollKept_spec K p fds).1.trans hle
      exact hnat (hi.trans_le (walk_sniffConnPoll_le _ hkept))

end OpenDSU
