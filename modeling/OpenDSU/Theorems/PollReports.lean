import OpenDSU.Theorems.PollCount

/-! Whether `ppoll` reports to every entry of the caller what the kernel has answered to it.

`dsu_set_revents` writes 1 where its search stops, and nothing elsewhere. The search is followed entry by entry of
the caller, with the index from which the next ready one is looked for. -/

namespace OpenDSU

variable {K : Kernel} {p : Proc} {binds : List DsuSocket} {fds rest l buf out : List PollFd} {timeout : Option Nat}
  {fds' : Nat → PollFd} {nfds' : Nat} {n : Int}

/-! ### The condition -/

/-- Where the search for entry `k` of the caller begins, if the ready entries before it were found in their places. -/
def searchStart (l : List PollFd) (fds' : Nat → PollFd) : Nat → Nat
  | 0 => 0
  | k + 1 =>
    if pollAnswer l fds' k ≠ 0 then k + 1
    else if (l[k]?.map PollFd.fd) = some (-1) then searchStart l fds' k
    else searchStart l fds' k + 1

/-- Each ready entry of the caller is answered with `POLLIN` and found in its place, the first of the others is found
    behind the array, and what is not ready holds no old result. -/
structure InPlace (binds : List DsuSocket) (l : List PollFd) (fds' : Nat → PollFd) (nfds' : Nat) (buf : List PollFd) :
    Prop where
  value : ∀ k, pollAnswer l fds' k ≠ 0 → pollAnswer l fds' k = pollin
  named : ∀ k e, l[k]? = some e → pollAnswer l fds' k ≠ 0 → (buf.map PollFd.fd)[k]? = some (dsuOriginalfd binds e.fd)
  first : ∀ k, pollAnswer l fds' k ≠ 0 → ∀ j, searchStart l fds' k ≤ j → j < k →
    (buf.map PollFd.fd)[j]? ≠ (buf.map PollFd.fd)[k]?
  behind : ∀ i, pollIndex l l.length ≤ i → i < nfds' → (fds' i).revents ≠ 0 →
    readyFrom fds' (pollIndex l l.length) i = 0 →
    ∀ j, searchStart l fds' l.length + (i - pollIndex l l.length) ≤ j → j < l.length →
      (buf.map PollFd.fd)[j]? ≠ some (dsuOriginalfd binds (fds' i).fd)
  fresh : ∀ k < l.length, pollAnswer l fds' k = 0 → (buf.map PollFd.revents)[k]? = some 0

/-! ### The loop -/

theorem dsuSetReventsFrom_ready {m i o : Nat} (h : (fds' i).revents ≠ 0) (b : List PollFd) :
    dsuSetReventsFrom binds fds' (m + 1) i o b =
      match seekFd (dsuOriginalfd binds (fds' i).fd) (b.drop (i + o)) (i + o) with
      | none => none
      | some k => dsuSetReventsFrom binds fds' m (i + 1) (k - i) (b.modify k ({ · with revents := 1 })) :=
  if_neg h

/-- The loop changes nothing but that it writes 1 to some entries, none of them before it starts to search. -/
theorem dsuSetReventsFrom_cases {m i o : Nat} (h : dsuSetReventsFrom binds fds' m i o buf = some out) (j : Nat) :
    out[j]? = buf[j]? ∨ (i + o ≤ j ∧ out[j]? = buf[j]?.map ({ · with revents := 1 })) := by
  induction m generalizing i o buf with
  | zero =>
    cases h
    exact Or.inl rfl
  | succ m ih =>
    unfold dsuSetReventsFrom at h
    split at h
    · exact (ih h).imp_right fun hj => ⟨by omega, hj.2⟩
    · rcases seekFd_drop (dsuOriginalfd binds (fds' i).fd) buf (i + o) with ⟨hs, -⟩ | ⟨k, hs, hk, -, -⟩ <;> rw [hs] at h
      · cases h
      · have hmodify : (buf.modify k ({ · with revents := 1 }))[j]? =
            if k = j then buf[j]?.map ({ · with revents := 1 }) else buf[j]? := by
          rw [List.getElem?_modify]
          split <;> simp
        rcases ih h with hj | ⟨hle, hj⟩ <;> rw [hj, hmodify]
        · split
          · exact Or.inr ⟨by omega, rfl⟩
          · exact Or.inl rfl
        · refine Or.inr ⟨by omega, ?_⟩
          split
          · rw [Option.map_map]
            rfl
          · rfl

theorem pollAnswer_lt {k : Nat} (h : pollAnswer l fds' k ≠ 0) : ∃ e, l[k]? = some e ∧ e.fd ≠ -1 ∧
    pollAnswer l fds' k = (fds' (pollIndex l k)).revents := by
  unfold pollAnswer at h ⊢
  split at h
  · rename_i e he
    split at h
    · exact absurd rfl h
    · rename_i hfd
      exact ⟨e, he, hfd, by simp [hfd]⟩
  · exact absurd rfl h

theorem pollIndex_le (l : List PollFd) (k : Nat) : pollIndex l k ≤ k := by
  unfold pollIndex
  exact (List.countP_le_length).trans (List.length_take_le _ _)

theorem pollIndex_le_kept (l : List PollFd) (k : Nat) : pollIndex l k ≤ pollIndex l l.length := by
  unfold pollIndex
  rw [List.take_length]
  exact (List.take_sublist k l).countP_le

theorem searchStart_ready {k : Nat} (h : pollAnswer l fds' k ≠ 0) : searchStart l fds' (k + 1) = k + 1 := if_pos h

theorem searchStart_unready {k : Nat} {e : PollFd} (he : l[k]? = some e) (h : pollAnswer l fds' k = 0) :
    searchStart l fds' (k + 1) = searchStart l fds' k + if e.fd = -1 then 0 else 1 := by
  change (if pollAnswer l fds' k ≠ 0 then _ else _) = _
  rw [if_neg (by simpa using h)]
  by_cases hfd : e.fd = -1 <;> simp [he, hfd]

theorem pollIndex_le_searchStart (fds' : Nat → PollFd) {k : Nat} (hk : k ≤ l.length) :
    pollIndex l k ≤ searchStart l fds' k := by
  induction k with
  | zero => exact Nat.zero_le _
  | succ k ih =>
    have hprev := ih (by omega)
    by_cases h : pollAnswer l fds' k = 0
    · have he := List.getElem?_eq_getElem (l := l) (i := k) (by omega)
      rw [pollIndex_succ l k _ he, searchStart_unready he h]
      omega
    · rw [searchStart_ready h]
      exact pollIndex_le l (k + 1)

theorem searchStart_le (fds' : Nat → PollFd) {k : Nat} (hk : k ≤ l.length) : searchStart l fds' k ≤ k := by
  induction k with
  | zero => exact Nat.le_refl _
  | succ k ih =>
    have hprev := ih (by omega)
    by_cases h : pollAnswer l fds' k = 0
    · rw [searchStart_unready (List.getElem?_eq_getElem (l := l) (i := k) (by omega)) h]
      split <;> omega
    · rw [searchStart_ready h]

/-- The search has passed the ready entries. -/
theorem lt_searchStart {j k : Nat} (hj : pollAnswer l fds' j ≠ 0) (hjk : j < k) (hk : k ≤ l.length) :
    j < searchStart l fds' k := by
  induction k with
  | zero => omega
  | succ k ih =>
    by_cases h : pollAnswer l fds' k = 0
    · have hne : j ≠ k := fun he => hj (he ▸ h)
      have hprev := ih (by omega) (by omega)
      rw [searchStart_unready (List.getElem?_eq_getElem (l := l) (i := k) (by omega)) h]
      omega
    · rw [searchStart_ready h]
      exact hjk

/-- The caller's array before entry `k` is looked for, if the ones before it were found in their places. -/
def markedBefore (l : List PollFd) (fds' : Nat → PollFd) (buf : List PollFd) : Nat → List PollFd
  | 0 => buf
  | k + 1 =>
    if pollAnswer l fds' k ≠ 0 then (markedBefore l fds' buf k).modify k ({ · with revents := 1 })
    else markedBefore l fds' buf k

theorem markedBefore_ready {k : Nat} (h : pollAnswer l fds' k ≠ 0) : markedBefore l fds' buf (k + 1) =
    (markedBefore l fds' buf k).modify k ({ · with revents := 1 }) := if_pos h

theorem markedBefore_unready {k : Nat} (h : pollAnswer l fds' k = 0) :
    markedBefore l fds' buf (k + 1) = markedBefore l fds' buf k := if_neg (by simpa using h)

theorem markedBefore_fd (k : Nat) : (markedBefore l fds' buf k).map PollFd.fd = buf.map PollFd.fd := by
  induction k with
  | zero => rfl
  | succ k ih =>
    by_cases h : pollAnswer l fds' k = 0
    · rw [markedBefore_unready h, ih]
    · rw [markedBefore_ready h, map_fd_modify, ih]

theorem markedBefore_getElem? (k j : Nat) : (markedBefore l fds' buf k)[j]? =
    if j < k ∧ pollAnswer l fds' j ≠ 0 then buf[j]?.map ({ · with revents := 1 }) else buf[j]? := by
  induction k with
  | zero => simp [markedBefore]
  | succ k ih =>
    by_cases hk : pollAnswer l fds' k = 0
    · rw [markedBefore_unready hk, ih]
      by_cases he : k = j
      · subst he
        simp [hk]
      · have hiff : j < k + 1 ↔ j < k := by omega
        simp [hiff]
    · rw [markedBefore_ready hk, List.getElem?_modify, ih]
      by_cases he : k = j
      · subst he
        simp [hk]
      · have hiff : j < k + 1 ↔ j < k := by omega
        simp [he, hiff]

/-- A ready entry that is named in its place and nowhere before it is found there. -/
theorem seekFd_marked {k : Nat} {fd : Int} (hk : k ≤ l.length) (hnamed : (buf.map PollFd.fd)[k]? = some fd)
    (hfirst : ∀ j, searchStart l fds' k ≤ j → j < k → (buf.map PollFd.fd)[j]? ≠ (buf.map PollFd.fd)[k]?) :
    seekFd fd ((markedBefore l fds' buf k).drop (searchStart l fds' k)) (searchStart l fds' k) = some k := by
  rw [hnamed] at hfirst
  rcases seekFd_drop fd (markedBefore l fds' buf k) (searchStart l fds' k) with ⟨-, hne⟩ | ⟨j, hs, hj, hfd, hmin⟩
  · rw [markedBefore_fd] at hne
    exact absurd hnamed (hne k (searchStart_le fds' hk))
  · rw [markedBefore_fd] at hfd hmin
    have hle := hmin k (searchStart_le fds' hk) hnamed
    by_cases hlt : j < k
    · exact absurd hfd (hfirst j hj hlt)
    · rw [hs, show j = k by omega]

/-- What is left of the loop at entry `k` of the caller. -/
def loopAt (binds : List DsuSocket) (l : List PollFd) (fds' : Nat → PollFd) (nfds' k : Nat) (buf : List PollFd) :
    Option (List PollFd) :=
  dsuSetReventsFrom binds fds' (nfds' - pollIndex l k) (pollIndex l k) (searchStart l fds' k - pollIndex l k) buf

section Step
variable (hkept : pollIndex l l.length ≤ nfds')
include hkept

/-- An entry without an answer is passed over. -/
theorem loopAt_unready {k : Nat} (hk : k < l.length) (h : pollAnswer l fds' k = 0) (b : List PollFd) :
    loopAt binds l fds' nfds' k b = loopAt binds l fds' nfds' (k + 1) b := by
  have he := List.getElem?_eq_getElem hk
  have hle := pollIndex_le_searchStart fds' (Nat.le_of_lt hk)
  have hbound := pollIndex_le_kept l (k + 1)
  unfold loopAt
  rw [searchStart_unready he h]
  rw [pollIndex_succ l k _ he] at hbound ⊢
  by_cases hfd : l[k].fd = -1
  · simp only [hfd, if_true, Nat.add_zero]
  · have hunready : (fds' (pollIndex l k)).revents = 0 := by simpa [pollAnswer, he, hfd] using h
    rw [if_neg hfd] at hbound
    simp only [hfd, if_false]
    rw [show nfds' - pollIndex l k = nfds' - (pollIndex l k + 1) + 1 by omega,
      show searchStart l fds' k + 1 - (pollIndex l k + 1) = searchStart l fds' k - pollIndex l k by omega]
    exact if_pos hunready

variable (hfds' : ∀ k e, l[k]? = some e → e.fd ≠ -1 → (fds' (pollIndex l k)).fd = e.fd)
include hfds'

/-- A ready entry is looked for. -/
theorem loopAt_ready {k : Nat} {e : PollFd} (he : l[k]? = some e) (h : pollAnswer l fds' k ≠ 0) (b : List PollFd) :
    loopAt binds l fds' nfds' k b =
      match seekFd (dsuOriginalfd binds e.fd) (b.drop (searchStart l fds' k)) (searchStart l fds' k) with
      | none => none
      | some j => dsuSetReventsFrom binds fds' (nfds' - pollIndex l (k + 1)) (pollIndex l (k + 1)) (j - pollIndex l k)
          (b.modify j ({ · with revents := 1 })) := by
  obtain ⟨e', he', hfd, hready⟩ := pollAnswer_lt h
  cases Option.some.inj (he.symm.trans he')
  have hk : k < l.length := (List.getElem?_eq_some_iff.mp he).1
  have hle := pollIndex_le_searchStart fds' (Nat.le_of_lt hk)
  have hbound := pollIndex_le_kept l (k + 1)
  unfold loopAt
  rw [pollIndex_succ l k _ he, if_neg hfd] at hbound ⊢
  rw [show nfds' - pollIndex l k = nfds' - (pollIndex l k + 1) + 1 by omega]
  rw [dsuSetReventsFrom_ready (hready ▸ h), hfds' k e he hfd, Nat.add_sub_cancel' hle]

/-- A ready entry that is found in its place is marked. -/
theorem loopAt_found {k : Nat} {e : PollFd} (he : l[k]? = some e) (h : pollAnswer l fds' k ≠ 0) {b : List PollFd}
    (hseek : seekFd (dsuOriginalfd binds e.fd) (b.drop (searchStart l fds' k)) (searchStart l fds' k) = some k) :
    loopAt binds l fds' nfds' k b = loopAt binds l fds' nfds' (k + 1) (b.modify k ({ · with revents := 1 })) := by
  rw [loopAt_ready hkept hfds' he h, hseek]
  obtain ⟨e', he', hfd, -⟩ := pollAnswer_lt h
  cases Option.some.inj (he.symm.trans he')
  unfold loopAt
  rw [searchStart_ready h, pollIndex_succ l k e he, if_neg hfd, Nat.add_sub_add_right]

/-- Where each ready entry is named in its place and nowhere before it, the loop comes to the entries of the library
    with each ready entry of the caller marked. -/
theorem loopAt_marked
    (hnamed : ∀ k e, l[k]? = some e → pollAnswer l fds' k ≠ 0 → (buf.map PollFd.fd)[k]? = some (dsuOriginalfd binds e.fd))
    (hfirst : ∀ k, pollAnswer l fds' k ≠ 0 → ∀ j, searchStart l fds' k ≤ j → j < k →
      (buf.map PollFd.fd)[j]? ≠ (buf.map PollFd.fd)[k]?) {k : Nat} (hk : k ≤ l.length) :
    loopAt binds l fds' nfds' 0 buf = loopAt binds l fds' nfds' k (markedBefore l fds' buf k) := by
  induction k with
  | zero => rfl
  | succ k ih =>
    rw [ih (by omega)]
    by_cases h : pollAnswer l fds' k = 0
    · rw [markedBefore_unready h]
      exact loopAt_unready hkept (by omega) h _
    · rw [markedBefore_ready h]
      have he := List.getElem?_eq_getElem (l := l) (i := k) (by omega)
      exact loopAt_found hkept hfds' he h (seekFd_marked (by omega) (hnamed k _ he h) (hfirst k h))

end Step

/-- The entries of the library write nothing into the caller's array if the first ready one finds nothing there. -/
theorem dsuSetReventsFrom_behind {m i o N : Nat} (h : dsuSetReventsFrom binds fds' m i o buf = some out)
    (hbehind : ∀ i', i ≤ i' → i' < i + m → (fds' i').revents ≠ 0 → readyFrom fds' i i' = 0 →
      ∀ j, i' + o ≤ j → j < N → (buf.map PollFd.fd)[j]? ≠ some (dsuOriginalfd binds (fds' i').fd)) :
    ∀ j < N, out[j]? = buf[j]? := by
  induction m generalizing i with
  | zero =>
    cases h
    exact fun _ _ => rfl
  | succ m ih =>
    unfold dsuSetReventsFrom at h
    by_cases hready : (fds' i).revents = 0
    · rw [if_pos hready] at h
      refine ih h fun i' hi hi' hr hnone => hbehind i' (by omega) (by omega) hr ?_
      rw [readyFrom_add (Nat.le_succ i) hi, hnone]
      simp [readyFrom, slice_succ, hready]
    · rw [if_neg hready] at h
      have hfirst := hbehind i (Nat.le_refl _) (by omega) hready (readyFrom_of_le (Nat.le_refl _))
      rcases seekFd_drop (dsuOriginalfd binds (fds' i).fd) buf (i + o) with ⟨hs, -⟩ | ⟨k, hs, hk, hfd, -⟩ <;> rw [hs] at h
      · cases h
      · have hN : N ≤ k := by
          by_contra hlt
          exact hfirst k hk (by omega) hfd
        intro j hj
        rcases dsuSetReventsFrom_cases h j with he | ⟨hle, -⟩
        · have hne : k ≠ j := by omega
          rw [he, List.getElem?_modify]
          simp [hne]
        · omega

/-- The first ready one of the entries that are left marks the first place that its descriptor has. -/
theorem dsuSetReventsFrom_first {m i o i' j : Nat} (h : dsuSetReventsFrom binds fds' m i o buf = some out)
    (hi : i ≤ i') (hi' : i' < i + m) (hready : (fds' i').revents ≠ 0) (hnone : readyFrom fds' i i' = 0)
    (hj : i' + o ≤ j) (hfd : (buf.map PollFd.fd)[j]? = some (dsuOriginalfd binds (fds' i').fd)) :
    ∃ k, i' + o ≤ k ∧ k ≤ j ∧ out[k]? = buf[k]?.map ({ · with revents := 1 }) := by
  induction m generalizing i with
  | zero => omega
  | succ m ih =>
    unfold dsuSetReventsFrom at h
    by_cases hlast : i = i'
    · subst hlast
      rw [if_neg hready] at h
      rcases seekFd_drop (dsuOriginalfd binds (fds' i).fd) buf (i + o) with ⟨-, hne⟩ | ⟨k, hs, hk, -, hmin⟩
      · exact absurd hfd (hne j hj)
      · rw [hs] at h
        refine ⟨k, hk, hmin j hj hfd, ?_⟩
        rcases dsuSetReventsFrom_cases h k with hkeep | ⟨-, hkeep⟩ <;> rw [hkeep, List.getElem?_modify] <;>
          cases buf[k]? <;> simp
    · rw [readyFrom_add (Nat.le_succ i) (by omega)] at hnone
      obtain ⟨hone, hlater⟩ := Nat.add_eq_zero_iff.mp hnone
      have hunready : (fds' i).revents = 0 := by
        by_contra hr
        simp [readyFrom, slice_succ, hr] at hone
      rw [if_pos hunready] at h
      exact ih h (by omega) (by omega) hlater

/-- The entries of the caller's array hold what the kernel has answered, and are otherwise unchanged. -/
def Reported (l : List PollFd) (fds' : Nat → PollFd) (buf out : List PollFd) : Prop :=
  ∀ k < l.length, out[k]? = buf[k]?.map ({ · with revents := pollAnswer l fds' k })

instance (l : List PollFd) (fds' : Nat → PollFd) (buf out : List PollFd) : Decidable (Reported l fds' buf out) :=
  inferInstanceAs (Decidable (∀ k < l.length, _))

theorem reported_of_inPlace (hkept : pollIndex l l.length ≤ nfds')
    (hfds' : ∀ k e, l[k]? = some e → e.fd ≠ -1 → (fds' (pollIndex l k)).fd = e.fd)
    (hin : InPlace binds l fds' nfds' buf) (h : dsuSetRevents binds buf fds' nfds' = some out) :
    Reported l fds' buf out := by
  have hloop : loopAt binds l fds' nfds' l.length (markedBefore l fds' buf l.length) = some out := by
    rw [← loopAt_marked hkept hfds' hin.named hin.first (Nat.le_refl _)]
    simpa [loopAt, pollIndex, searchStart, dsuSetRevents] using h
  have hkeep : ∀ j < l.length, out[j]? = (markedBefore l fds' buf l.length)[j]? := by
    refine dsuSetReventsFrom_behind hloop fun i hi hi' hr hnone j hj hj' => ?_
    have hle := pollIndex_le_searchStart fds' (Nat.le_refl l.length)
    rw [markedBefore_fd]
    exact hin.behind i hi (by omega) hr hnone j (by omega) hj'
  intro k hk
  rw [hkeep k hk, markedBefore_getElem?]
  by_cases hready : pollAnswer l fds' k = 0
  · rw [if_neg (by simp [hready]), hready]
    have hfresh := hin.fresh k hk hready
    rw [List.getElem?_map] at hfresh
    cases hbuf : buf[k]? with
    | none => rfl
    | some e =>
      rw [hbuf] at hfresh
      have hzero : e.revents = 0 := by simpa using hfresh
      rw [Option.map_some, ← hzero]
  · rw [if_pos ⟨hk, hready⟩, hin.value k hready]
    rfl

section Converse
variable (hkept : pollIndex l l.length ≤ nfds')
  (hfds' : ∀ (k : Nat) (e : PollFd), l[k]? = some e → e.fd ≠ -1 → (fds' (pollIndex l k)).fd = e.fd)
  (hnamed : ∀ (k : Nat) (e : PollFd), l[k]? = some e → e.fd ≠ -1 →
    (buf.map PollFd.fd)[k]? = some (dsuOriginalfd binds e.fd))
  (h : dsuSetRevents binds buf fds' nfds' = some out) (hout : Reported l fds' buf out)
include hkept hfds' hnamed h hout

omit h in
/-- Where the result is right, the search for a ready entry stops at it: what it writes is an answer, and the answers
    before it have been found before. -/
theorem found_of_reported {k : Nat} {e : PollFd} (he : l[k]? = some e) (hready : pollAnswer l fds' k ≠ 0)
    (hloop : loopAt binds l fds' nfds' k (markedBefore l fds' buf k) = some out) :
    seekFd (dsuOriginalfd binds e.fd) ((markedBefore l fds' buf k).drop (searchStart l fds' k)) (searchStart l fds' k) =
        some k ∧
      pollAnswer l fds' k = pollin ∧
      ∀ j, searchStart l fds' k ≤ j → j < k → (buf.map PollFd.fd)[j]? ≠ (buf.map PollFd.fd)[k]? := by
  have hk : k < l.length := (List.getElem?_eq_some_iff.mp he).1
  have hfd : e.fd ≠ -1 := by
    obtain ⟨e', he', hfd, -⟩ := pollAnswer_lt hready
    cases Option.some.inj (he.symm.trans he')
    exact hfd
  have htarget := hnamed k e he hfd
  have hle := searchStart_le fds' (Nat.le_of_lt hk)
  rw [loopAt_ready hkept hfds' he hready] at hloop
  rcases seekFd_drop (dsuOriginalfd binds e.fd) (markedBefore l fds' buf k) (searchStart l fds' k) with
    ⟨hs, hne⟩ | ⟨j, hs, hj, hjfd, hmin⟩
  · rw [markedBefore_fd] at hne
    exact absurd htarget (hne k hle)
  rw [markedBefore_fd] at hjfd hmin
  rw [hs] at hloop
  have hjk := hmin k hle htarget
  have hone : pollAnswer l fds' j = pollin := by
    rw [List.getElem?_map] at hjfd
    obtain ⟨b, hb, -⟩ := Option.map_eq_some_iff.mp hjfd
    have hmarked : out[j]? = some { b with revents := pollin } := by
      rcases dsuSetReventsFrom_cases hloop j with hkeep | ⟨-, hkeep⟩ <;> rw [hkeep] <;>
        simp [markedBefore_getElem?, hb, pollin] <;> split <;> simp
    rw [hout j (by omega), hb] at hmarked
    simpa using hmarked
  have heq : j = k := by
    by_contra hne
    have hanswer : pollAnswer l fds' j ≠ 0 := by
      rw [hone]
      decide
    have hpassed := lt_searchStart (k := k) hanswer (by omega) (by omega)
    omega
  subst heq
  refine ⟨hs, hone, fun i hi hik hifd => ?_⟩
  have := hmin i hi (hifd.trans hjfd)
  omega

/-- Where the result is right, the loop has found each ready entry in its place. -/
theorem loopAt_of_reported {k : Nat} (hk : k ≤ l.length) :
    loopAt binds l fds' nfds' k (markedBefore l fds' buf k) = some out ∧
      ∀ k' < k, pollAnswer l fds' k' ≠ 0 → pollAnswer l fds' k' = pollin ∧
        ∀ j, searchStart l fds' k' ≤ j → j < k' → (buf.map PollFd.fd)[j]? ≠ (buf.map PollFd.fd)[k']? := by
  induction k with
  | zero => exact ⟨by simpa [loopAt, pollIndex, searchStart, markedBefore, dsuSetRevents] using h, by omega⟩
  | succ k ih =>
    obtain ⟨hloop, hbefore⟩ := ih (by omega)
    by_cases hready : pollAnswer l fds' k = 0
    · refine ⟨?_, fun k' hk' hr => hbefore k' ?_ hr⟩
      · rw [markedBefore_unready hready, ← loopAt_unready hkept (by omega) hready]
        exact hloop
      · have hne : k' ≠ k := fun he => hr (he ▸ hready)
        omega
    · obtain ⟨e, he, -, -⟩ := pollAnswer_lt hready
      obtain ⟨hs, hone, hfirst⟩ := found_of_reported hkept hfds' hnamed hout he hready hloop
      refine ⟨?_, fun k' hk' hr => ?_⟩
      · rw [markedBefore_ready hready, ← loopAt_found hkept hfds' he hready hs]
        exact hloop
      · by_cases hlast : k' = k
        · subst hlast
          exact ⟨hone, hfirst⟩
        · exact hbefore k' (by omega) hr

/-- Where every entry can be told, the result is right only in place. -/
theorem inPlace_of_reported (hlen : l.length ≤ buf.length) : InPlace binds l fds' nfds' buf := by
  obtain ⟨hloop, hbefore⟩ := loopAt_of_reported hkept hfds' hnamed h hout (Nat.le_refl l.length)
  have hlt : ∀ k, pollAnswer l fds' k ≠ 0 → k < l.length := fun k hr => by
    obtain ⟨e, he, -, -⟩ := pollAnswer_lt hr
    exact (List.getElem?_eq_some_iff.mp he).1
  refine ⟨fun k hr => (hbefore k (hlt k hr) hr).1, fun k e he hr => ?_, fun k hr => (hbefore k (hlt k hr) hr).2,
    fun i hi hi' hr hnone j hj hjl hfd => ?_, fun k hk hr => ?_⟩
  · obtain ⟨e', he', hfd, -⟩ := pollAnswer_lt hr
    cases Option.some.inj (he.symm.trans he')
    exact hnamed k e he hfd
  · -- The place that the entry of the library finds would hold an answer that the search has passed.
    have hle := pollIndex_le_searchStart fds' (Nat.le_refl l.length)
    obtain ⟨k, hk, hkj, hmarked⟩ := dsuSetReventsFrom_first (j := j) hloop hi (by omega) hr hnone (by omega)
      (by rwa [markedBefore_fd])
    have hready : pollAnswer l fds' k ≠ 0 := by
      have hb := List.getElem?_eq_getElem (l := buf) (i := k) (by omega)
      rw [hout k (by omega), markedBefore_getElem?, hb] at hmarked
      split at hmarked
      · rename_i hready
        exact hready.2
      · simp at hmarked
        omega
    have hpassed := lt_searchStart hready (by omega) (Nat.le_refl l.length)
    omega
  · have hb := List.getElem?_eq_getElem (l := buf) (i := k) (by omega)
    have hanswer := hout k hk
    rw [hr, hb] at hanswer
    rw [List.getElem?_map, hb]
    rcases dsuSetReventsFrom_cases h k with hkeep | ⟨-, hkeep⟩ <;> rw [hkeep, hb] at hanswer <;> simp at hanswer ⊢
    exact congrArg PollFd.revents hanswer

end Converse

/-! ### The call -/

theorem getElem?_filter_countP {α : Type} (q : α → Bool) {l : List α} {k : Nat} {a : α} (ha : l[k]? = some a)
    (hq : q a = true) : (l.filter q)[(l.take k).countP q]? = some a := by
  induction l generalizing k with
  | nil => simp at ha
  | cons b l ih =>
    cases k with
    | zero =>
      cases Option.some.inj ha
      simp [hq]
    | succ k =>
      rw [List.getElem?_cons_succ] at ha
      by_cases hb : q b = true
      · simpa [hb] using ih ha
      · simpa [hb] using ih ha

/-- The place of an entry that `dsu_compress_fds` keeps. -/
theorem dsuCompressFds_fd {k : Nat} {e : PollFd} (he : l[k]? = some e) (hfd : e.fd ≠ -1) :
    let r := dsuCompressFds (pollArray l) l.length
    pollIndex l k < r.1 ∧ (r.2 (pollIndex l k)).fd = e.fd := by
  obtain ⟨hlen, hslice⟩ := dsuCompressFds_spec l
  have hget := getElem?_filter_countP (!· == -1) (l := l.map PollFd.fd) (k := k) (a := e.fd)
    (by rw [List.getElem?_map, he, Option.map_some]) (by simpa using hfd)
  have hindex : ((l.map PollFd.fd).take k).countP (!· == (-1 : Int)) = pollIndex l k := by
    unfold pollIndex
    rw [← List.map_take, List.countP_map]
    congr 1
    funext e
    rw [Bool.eq_iff_iff]
    simp
  rw [hindex] at hget
  have hlt := (List.getElem?_eq_some_iff.mp hget).1
  rw [← hslice] at hget
  refine ⟨hlen ▸ hlt, ?_⟩
  simpa [slice, hlt] using hget

/-- The entry that an entry of the caller was translated to, unless it was dropped. -/
theorem polled_fd {a : (Nat → PollFd) × Nat} (ha : a ∈ p.polled K fds timeout) (k : Nat) (e : PollFd)
    (he : (p.translated K fds)[k]? = some e) (hfd : e.fd ≠ -1) :
    (a.1 (pollIndex (p.translated K fds) k)).fd = e.fd := by
  unfold Proc.polled at ha
  unfold Proc.translated at he ⊢
  simp only at ha
  generalize dsuInitializeEvent K p = p' at ha he ⊢
  split at ha
  · cases ha
  · obtain ⟨found, hfound, rfl⟩ := Option.map_eq_some_iff.mp ha
    obtain ⟨hlt, hkept⟩ := dsuCompressFds_fd he hfd
    have hsame := (pollAsk_appended K p' fds).kept _ hlt
    exact (World.ppoll_fd hfound _).trans ((congrArg PollFd.fd hsame).trans hkept)

/-- An entry that was not dropped stands for the caller's entry, if that can be told. -/
theorem translated_named (hown : ∀ e ∈ fds, dsuOriginalfd p.binds (dsuShadowfd p.binds e.fd) = e.fd) (k : Nat)
    (e : PollFd) (he : (p.translated K fds)[k]? = some e) (hfd : e.fd ≠ -1) :
    ((fds ++ rest).map PollFd.fd)[k]? = some (dsuOriginalfd p.binds e.fd) := by
  have hall := walk_prePollEntry_fd (K := K) fds ((dsuInitializeEvent K p).binds, (dsuInitializeEvent K p).world)
    (dsuInitializeEvent_evolves K p).names
  obtain ⟨hk, he⟩ := List.getElem?_eq_some_iff.mp he
  have hk' : k < fds.length := hall.length_eq ▸ hk
  rw [List.getElem?_map, List.getElem?_append_left hk', List.getElem?_eq_getElem hk', Option.map_some]
  have hname := (hall.get hk' hk).resolve_left (fun hd => hfd (he ▸ hd))
  rw [← hown _ (List.getElem_mem hk'), ← he]
  exact congrArg (fun c => some (dsuOriginalfd p.binds c)) hname.symm

theorem returned_set (h : (ppollIn K fds rest timeout p).2 = .returned n out) (hn : 0 ≤ n) :
    ∃ a ∈ p.polled K fds timeout, dsuSetRevents p.binds (fds ++ rest) a.1 a.2 = some out := by
  cases ha : p.polled K fds timeout with
  | none =>
    rw [ppollIn_failed ha h] at hn
    exact absurd hn (by decide)
  | some a => exact ⟨a, rfl, ((ppollIn_returned_iff ha).mp h).1⟩

/-- A `ppoll` that returns reports what the kernel has answered if each answer is `POLLIN` and is found in its place;
    and only then, if the caller's descriptors can be told from the numbers they are translated to. -/
theorem reported_iff (h : (ppollIn K fds rest timeout p).2 = .returned n out) (hn : 0 ≤ n) :
    ∃ a ∈ p.polled K fds timeout,
      (InPlace p.binds (p.translated K fds) a.1 a.2 (fds ++ rest) →
        Reported (p.translated K fds) a.1 (fds ++ rest) out) ∧
      ((∀ e ∈ fds, dsuOriginalfd p.binds (dsuShadowfd p.binds e.fd) = e.fd) →
        (Reported (p.translated K fds) a.1 (fds ++ rest) out ↔
          InPlace p.binds (p.translated K fds) a.1 a.2 (fds ++ rest))) := by
  obtain ⟨a, ha, hset⟩ := returned_set h hn
  have hkept : pollIndex (p.translated K fds) (p.translated K fds).length ≤ a.2 := by
    rw [← kept_eq]
    exact (kept_le ha).2
  have hlen : (p.translated K fds).length ≤ (fds ++ rest).length := by
    unfold Proc.translated
    rw [pollTranslated_length, List.length_append]
    exact Nat.le_add_right _ _
  have hin := fun hin => reported_of_inPlace hkept (polled_fd ha) hin hset
  refine ⟨a, ha, hin, fun hown => ⟨fun hout => ?_, hin⟩⟩
  exact inPlace_of_reported hkept (polled_fd ha) (translated_named hown) hset hout hlen

/-- A client and a new version connect: both descriptors of the record are ready. -/
def busyKernel : Kernel := { soloKernel with ppoll := fun _ _ => some fun i => if i < 2 then pollin else 0 }

/-- A client and a new version connect while a bound socket is polled: the caller's entry holds its answer, and the entry
    behind the array takes the other report. -/
theorem reported_with_spare_entry : ∃ p a out,
    (procMachine busyKernel).run .loaded [.socket, .bind 3 8080] = some p ∧
    p.polled busyKernel [⟨3, pollin, 0⟩] none = some a ∧
    (ppollIn busyKernel [⟨3, pollin, 0⟩] [⟨4, pollin, 0⟩] none p).2 = .returned 1 out ∧
    pollAnswer (p.translated busyKernel [⟨3, pollin, 0⟩]) a.1 0 = pollin ∧
    Reported (p.translated busyKernel [⟨3, pollin, 0⟩]) a.1 [⟨3, pollin, 0⟩, ⟨4, pollin, 0⟩] out ∧
    InPlace p.binds (p.translated busyKernel [⟨3, pollin, 0⟩]) a.1 a.2 [⟨3, pollin, 0⟩, ⟨4, pollin, 0⟩] := by
  have hreturned : (ppollIn busyKernel [⟨3, pollin, 0⟩] [⟨4, pollin, 0⟩] none
      (bind busyKernel (socket busyKernel .loaded).2 3 8080).2).2 = .returned 1 [⟨3, pollin, 1⟩, ⟨4, pollin, 1⟩] := rfl
  refine ⟨_, _, _, rfl, rfl, hreturned, by decide, by decide, ?_⟩
  obtain ⟨a, ha, -, hiff⟩ := reported_iff hreturned (by decide)
  cases ha
  exact (hiff (by decide)).mp (by decide)

/-- A connection has room for data, which is `POLLOUT`. -/
def roomKernel : Kernel := { soloKernel with ppoll := fun _ _ => some fun i => if i = 0 then 4 else 0 }

/-- A process polls a connection for `POLLOUT`, and finds `POLLIN` reported. -/
theorem reported_as_pollin : ∃ p a out,
    (procMachine roomKernel).run .loaded [.socket, .bind 3 8080, .socket] = some p ∧
    p.polled roomKernel [⟨5, 4, 0⟩] none = some a ∧ pollAnswer (p.translated roomKernel [⟨5, 4, 0⟩]) a.1 0 = 4 ∧
    (ppollIn roomKernel [⟨5, 4, 0⟩] [] none p).2 = .returned 1 out ∧
    ¬ Reported (p.translated roomKernel [⟨5, 4, 0⟩]) a.1 [⟨5, 4, 0⟩] out := by
  refine ⟨_, _, _, rfl, rfl, rfl, rfl, fun h => ?_⟩
  have := h 0 (by decide)
  revert this
  decide

end OpenDSU
