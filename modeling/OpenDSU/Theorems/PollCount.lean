import OpenDSU.PollBuffer
import OpenDSU.Theorems.PollRevents

/-! What `ppoll` returns. Every record raises the counter `correction` for every ready entry behind the caller's. -/

namespace OpenDSU

variable {K : Kernel} {p : Proc} {fds rest out : List PollFd} {timeout : Option Nat} {fds' : Nat → PollFd} {n : Int}

/-- Without anything behind the array, this is `ppoll`. -/
theorem ppollIn_nil (K : Kernel) (fds : List PollFd) (timeout : Option Nat) (p : Proc) :
    ppollIn K fds [] timeout p = ppoll K fds timeout p := by
  unfold ppollIn ppoll ppollRestIn ppollRest
  generalize hbuf : fds ++ [] = buf
  rw [List.append_nil] at hbuf
  subst hbuf
  rfl

/-! ### Ready entries -/

theorem readyFrom_add {i j k : Nat} (hij : i ≤ j) (hjk : j ≤ k) :
    readyFrom fds' i k = readyFrom fds' i j + readyFrom fds' j k := by
  obtain ⟨a, rfl⟩ := Nat.exists_eq_add_of_le hij
  obtain ⟨b, rfl⟩ := Nat.exists_eq_add_of_le hjk
  unfold readyFrom
  rw [show i + a + b - i = a + b by omega, show i + a - i = a by omega, show i + a + b - (i + a) = b by omega,
    slice_append, List.countP_append]

theorem readyFrom_of_le {i j : Nat} (h : j ≤ i) : readyFrom fds' i j = 0 := by
  unfold readyFrom
  rw [Nat.sub_eq_zero_of_le h]
  rfl

theorem readyFrom_succ (fds' : Nat → PollFd) (i : Nat) :
    readyFrom fds' 0 (i + 1) = readyFrom fds' 0 i + if (fds' i).revents ≠ 0 then 1 else 0 := by
  rw [readyFrom_add (Nat.zero_le i) (Nat.le_succ i)]
  simp [readyFrom, slice_succ, List.countP_cons]

theorem pollIndex_succ (l : List PollFd) (k : Nat) (e : PollFd) (he : l[k]? = some e) :
    pollIndex l (k + 1) = pollIndex l k + if e.fd = -1 then 0 else 1 := by
  unfold pollIndex
  rw [List.take_add_one, he, List.countP_append]
  by_cases h : e.fd = -1 <;> simp [h]

/-- The ready entries of the caller are the ones that the compression has left in front. -/
theorem pollAnswers_eq (l : List PollFd) (fds' : Nat → PollFd) :
    pollAnswers l fds' = readyFrom fds' 0 (pollIndex l l.length) := by
  have hprefix : ∀ k ≤ l.length,
      (List.range k).countP (pollAnswer l fds' · ≠ 0) = readyFrom fds' 0 (pollIndex l k) := by
    intro k
    induction k with
    | zero => exact fun _ => by simp [pollIndex, readyFrom]
    | succ k ih =>
      intro hk
      obtain ⟨e, he⟩ : ∃ e, l[k]? = some e := ⟨_, List.getElem?_eq_getElem (by omega)⟩
      rw [List.range_succ, List.countP_append, ih (by omega), pollIndex_succ l k e he]
      by_cases hfd : e.fd = -1
      · simp [pollAnswer, he, hfd]
      · rw [if_neg hfd, readyFrom_succ]
        simp [pollAnswer, he, hfd, List.countP_cons]
  exact hprefix _ (Nat.le_refl _)

/-! ### The counter -/

theorem foldl_entriesPoll_correction (es : List PollFd) (st : DsuSocket × PollPass) :
    (es.foldl (dsuHandleEntryPoll K) st).2.correction = st.2.correction + es.countP (·.revents ≠ 0) := by
  induction es generalizing st with
  | nil => simp
  | cons e es ih =>
    rw [List.foldl_cons, ih, List.countP_cons, dsuHandleEntryPoll_eq]
    by_cases h : e.revents = 0
    · simp [h]
    · simp [h]
      omega

/-- The handlers count the ready entries of their range once for each record. -/
theorem walk_handleConnPoll_correction (start stop : Nat) (l : List DsuSocket) (s : PollPass) :
    (walk (dsuHandleConnPoll K fds' start stop) l s).2.correction =
      s.correction + l.length * readyFrom fds' start stop := by
  induction l generalizing s with
  | nil => simp
  | cons r l ih =>
    have hone : (dsuHandleConnPoll K fds' start stop r s).2.correction = s.correction + readyFrom fds' start stop :=
      foldl_entriesPoll_correction _ (r, s)
    rw [walk_cons, ih, hone, List.length_cons]
    push_cast
    rw [Int.add_mul, Int.one_mul, Int.add_assoc, Int.add_comm (readyFrom fds' start stop : Int)]

/-! ### The call -/

theorem dsuSetRevents_congr {binds binds' : List DsuSocket} (h : binds'.map DsuSocket.names = binds.map DsuSocket.names)
    (buf : List PollFd) (nfds' : Nat) : dsuSetRevents binds' buf fds' nfds' = dsuSetRevents binds buf fds' nfds' := by
  have hfrom : ∀ m i o (l : List PollFd), dsuSetReventsFrom binds' fds' m i o l = dsuSetReventsFrom binds fds' m i o l := by
    intro m
    induction m with
    | zero => exact fun _ _ _ => rfl
    | succ m ih =>
      intro i o l
      unfold dsuSetReventsFrom
      rw [dsuOriginalfd_congr h, ih]
      simp only [ih]
  exact hfrom nfds' 0 0 buf

/-- What `ppoll` translates the caller's array to. -/
def Proc.translated (K : Kernel) (p : Proc) (fds : List PollFd) : List PollFd :=
  pollTranslated K (dsuInitializeEvent K p) fds

theorem kept_eq (K : Kernel) (p : Proc) (fds : List PollFd) :
    p.kept K fds = pollIndex (p.translated K fds) (p.translated K fds).length := by
  have hlen := (dsuCompressFds_spec (p.translated K fds)).1
  refine Eq.trans hlen ?_
  unfold pollIndex
  rw [List.take_length, List.filter_map, List.length_map, List.countP_eq_length_filter]
  congr 2
  funext e
  rw [Bool.eq_iff_iff]
  simp

theorem kept_le {a : (Nat → PollFd) × Nat} (ha : a ∈ p.polled K fds timeout) :
    p.kept K fds ≤ fds.length ∧ p.kept K fds ≤ a.2 := by
  unfold Proc.polled at ha
  simp only at ha
  split at ha
  · cases ha
  · obtain ⟨found, -, rfl⟩ := Option.map_eq_some_iff.mp ha
    exact ⟨(pollKept_spec K _ fds).1, (pollAsk_appended K _ fds).le⟩

/-- Without a ready entry nothing is written. -/
theorem dsuSetRevents_of_none {binds : List DsuSocket} {buf : List PollFd} {nfds' : Nat}
    (h : readyFrom fds' 0 nfds' = 0) : dsuSetRevents binds buf fds' nfds' = some buf := by
  have hfrom : ∀ m i, readyFrom fds' i (i + m) = 0 → dsuSetReventsFrom binds fds' m i 0 buf = some buf := by
    intro m
    induction m with
    | zero => exact fun _ _ => rfl
    | succ m ih =>
      intro i hi
      rw [readyFrom_add (Nat.le_succ i) (by omega)] at hi
      obtain ⟨hone, hlater⟩ := Nat.add_eq_zero_iff.mp hi
      unfold dsuSetReventsFrom
      rw [if_pos (by by_contra hr; simp [readyFrom, slice_succ, hr] at hone)]
      exact ih (i + 1) (by rwa [Nat.add_right_comm])
  exact hfrom nfds' 0 (by rwa [Nat.zero_add])

/-- Each record subtracts each ready entry behind the array of the caller. -/
theorem pollServe_correction {q : Proc} (fds' : Nat → PollFd) (nfds nfds' : Nat) (h : q.correction = 0) :
    (pollServe K q fds' nfds nfds').correction = q.binds.length * readyFrom fds' nfds nfds' := by
  refine (walk_handleConnPoll_correction nfds nfds' q.binds _).trans ?_
  change q.correction + _ = _
  rw [h, Int.zero_add]

/-- Where the wait does not fail, `ppoll` returns what the records leave of its result, unless the search runs on. -/
theorem ppollIn_returned_iff {a : (Nat → PollFd) × Nat} (ha : a ∈ p.polled K fds timeout) :
    (ppollIn K fds rest timeout p).2 = .returned n out ↔
      dsuSetRevents p.binds (fds ++ rest) a.1 a.2 = some out ∧
        n = readyFrom a.1 0 a.2 - p.binds.length * readyFrom a.1 fds.length a.2 := by
  have hnames := (dsuInitializeEvent_evolves K p).names
  unfold Proc.polled at ha
  unfold ppollIn
  simp only at ha ⊢
  generalize dsuInitializeEvent K p = p' at ha hnames ⊢
  split at ha
  · cases ha
  · rename_i hexit
    have hask := pollAsk_evolves K p' fds
    have hzero : (pollAsk K p' fds).proc.correction = 0 := rfl
    obtain ⟨⟨fds', result⟩, hfound, rfl⟩ := Option.map_eq_some_iff.mp ha
    have hresult : result = readyFrom fds' 0 (pollAsk K p' fds).nfds := by
      obtain ⟨ready, -, he⟩ := Option.map_eq_some_iff.mp hfound
      cases he
      rfl
    rw [if_neg hexit]
    unfold ppollRestIn
    simp only [hfound]
    rw [← hresult]
    split
    · rename_i hnone
      rw [hnone] at hresult
      have hbehind : readyFrom fds' fds.length (pollAsk K p' fds).nfds = 0 := by
        by_cases hle : fds.length ≤ (pollAsk K p' fds).nfds
        · rw [readyFrom_add (Nat.zero_le fds.length) hle] at hresult
          omega
        · exact readyFrom_of_le (by omega)
      rw [dsuSetRevents_of_none hresult.symm, hbehind, hnone]
      simp [eq_comm, and_comm]
    · generalize hq : ({ (pollAsk K p' fds).proc with
        world := ((pollAsk K p' fds).proc.world.ppoll K (pollAsk K p' fds).fds (pollAsk K p' fds).nfds
          timeout).2 } : Proc) = q
      have hasked : p'.Evolves q := hq ▸ hask.world (World.same_tick _)
      have hserved := (hasked.trans (pollServe_evolves K q fds' fds.length (pollAsk K p' fds).nfds)).names.trans hnames
      have hlength : q.binds.length = p.binds.length := by
        have := congrArg List.length (hasked.names.trans hnames)
        simpa using this
      rw [dsuSetRevents_congr hserved, pollServe_correction fds' fds.length _ (hq ▸ hzero), hlength]
      cases dsuSetRevents p.binds (fds ++ rest) fds' (pollAsk K p' fds).nfds with
      | none => simp
      | some buf => simp [eq_comm, and_comm]

/-- Where the wait fails, `ppoll` returns -1. -/
theorem ppollIn_failed (h : p.polled K fds timeout = none) (hr : (ppollIn K fds rest timeout p).2 = .returned n out) :
    n = -1 := by
  unfold Proc.polled at h
  unfold ppollIn at hr
  simp only at h hr
  split at h
  · rename_i hexit
    rw [if_pos hexit] at hr
    cases hr
  · rename_i hexit
    rw [if_neg hexit] at hr
    unfold ppollRestIn at hr
    simp only [Option.map_eq_none_iff.mp h] at hr
    cases hr
    rfl

/-- After a wait that does not fail, `ppoll` returns the number of the caller's ready entries if and only if the ready
    entries of the library are as many as the records subtract. -/
theorem returned_count_iff (rest : List PollFd) (timeout : Option Nat)
    (h : (ppollIn K fds rest timeout p).2 = .returned n out) {a : (Nat → PollFd) × Nat}
    (ha : a ∈ p.polled K fds timeout) :
    n = pollAnswers (p.translated K fds) a.1 ↔
      p.binds.length * readyFrom a.1 fds.length a.2 = readyFrom a.1 (p.kept K fds) a.2 := by
  rw [pollAnswers_eq, ← kept_eq]
  have hsplit : readyFrom a.1 0 a.2 = readyFrom a.1 0 (p.kept K fds) + readyFrom a.1 (p.kept K fds) a.2 :=
    readyFrom_add (Nat.zero_le _) (kept_le ha).2
  obtain ⟨-, hn⟩ := (ppollIn_returned_iff ha).mp h
  rw [hn]
  constructor
  · intro he
    have : (p.binds.length : Int) * readyFrom a.1 fds.length a.2 = readyFrom a.1 (p.kept K fds) a.2 := by omega
    exact_mod_cast this
  · intro he
    have : (p.binds.length : Int) * readyFrom a.1 fds.length a.2 = readyFrom a.1 (p.kept K fds) a.2 := by
      exact_mod_cast he
    omega

/-- One socket is bound, and a new version connects. Behind the array lies an entry with the number of the `comfd`. -/
theorem returned_count_of_one_socket : ∃ p a out,
    (procMachine connectKernel).run .loaded [.socket, .bind 3 8080] = some p ∧
    p.polled connectKernel [⟨3, pollin, 0⟩] none = some a ∧
    (ppollIn connectKernel [⟨3, pollin, 0⟩] [⟨4, pollin, 0⟩] none p).2 = .returned 0 out ∧
    ((0 : Int) = pollAnswers (p.translated connectKernel [⟨3, pollin, 0⟩]) a.1 ↔
      p.binds.length * readyFrom a.1 1 a.2 = readyFrom a.1 (p.kept connectKernel [⟨3, pollin, 0⟩]) a.2) :=
  ⟨_, _, _, rfl, rfl, rfl, returned_count_iff [⟨4, pollin, 0⟩] none rfl rfl⟩

/-- The third entry of the translated array is ready. -/
def thirdKernel : Kernel := { soloKernel with ppoll := fun _ _ => some fun i => if i = 2 then 1 else 0 }

/-- Two sockets are bound, and a new version connects for one of them: both records subtract it. -/
theorem returned_count_negative : ∃ p a out,
    (procMachine thirdKernel).run .loaded [.socket, .bind 3 8080, .socket, .bind 5 8081] = some p ∧
    p.polled thirdKernel [⟨3, pollin, 0⟩, ⟨5, pollin, 0⟩] none = some a ∧ readyFrom a.1 0 a.2 = 1 ∧
    (ppollIn thirdKernel [⟨3, pollin, 0⟩, ⟨5, pollin, 0⟩] [⟨4, pollin, 0⟩] none p).2 = .returned (-1) out ∧
    pollAnswers (p.translated thirdKernel [⟨3, pollin, 0⟩, ⟨5, pollin, 0⟩]) a.1 = 0 :=
  ⟨_, _, _, rfl, rfl, rfl, rfl, rfl⟩

end OpenDSU
