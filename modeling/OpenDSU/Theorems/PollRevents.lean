import OpenDSU.Theorems.PollArray
import Mathlib.Order.WellFounded

/-! Whether `dsu_set_revents` stays inside the caller's array.

It takes the ready entries of the translated array in their order and looks for each of them from where the
last one was found. An entry of the caller is never looked for beyond its place. An appended entry has no
place. -/

open Relation

namespace OpenDSU

variable {K : Kernel} {p : Proc} {binds binds' : List DsuSocket} {fds : List PollFd} {fds' : Nat → PollFd}

/-! ### The search -/

theorem seekFd_spec (fd : Int) (es : List PollFd) (k : Nat) :
    (seekFd fd es k = none ∧ fd ∉ es.map PollFd.fd) ∨
    ∃ j, seekFd fd es k = some (k + j) ∧ (es.map PollFd.fd)[j]? = some fd ∧
      ∀ i, (es.map PollFd.fd)[i]? = some fd → j ≤ i := by
  induction es generalizing k with
  | nil => exact Or.inl ⟨rfl, by simp⟩
  | cons e es ih =>
    unfold seekFd
    by_cases he : e.fd = fd
    · rw [if_pos he]
      exact Or.inr ⟨0, rfl, by simp [he], fun _ _ => Nat.zero_le _⟩
    · rw [if_neg he]
      rcases ih (k + 1) with ⟨hs, hne⟩ | ⟨j, hs, hj, hmin⟩
      · refine Or.inl ⟨hs, fun hm => ?_⟩
        rcases List.mem_cons.mp hm with hm | hm
        · exact he hm.symm
        · exact hne hm
      · refine Or.inr ⟨j + 1, by rw [hs]; congr 1; omega, by simpa using hj, fun i hi => ?_⟩
        cases i with
        | zero => exact absurd (by simpa using hi) he
        | succ i => exact Nat.succ_le_succ (hmin i (by simpa using hi))

/-- The search from index `s` on finds the first entry with the descriptor, if there is one. -/
theorem seekFd_drop (fd : Int) (fds : List PollFd) (s : Nat) :
    (seekFd fd (fds.drop s) s = none ∧ ∀ i, s ≤ i → (fds.map PollFd.fd)[i]? ≠ some fd) ∨
    ∃ k, seekFd fd (fds.drop s) s = some k ∧ s ≤ k ∧ (fds.map PollFd.fd)[k]? = some fd ∧
      ∀ i, s ≤ i → (fds.map PollFd.fd)[i]? = some fd → k ≤ i := by
  have hget : ∀ i, ((fds.drop s).map PollFd.fd)[i]? = (fds.map PollFd.fd)[s + i]? := by
    intro i
    rw [List.map_drop, List.getElem?_drop]
  rcases seekFd_spec fd (fds.drop s) s with ⟨hs, hne⟩ | ⟨j, hs, hj, hmin⟩
  · refine Or.inl ⟨hs, fun i hi hfd => hne (List.mem_of_getElem? (i := i - s) ?_)⟩
    rw [hget, Nat.add_sub_cancel' hi]
    exact hfd
  · refine Or.inr ⟨s + j, hs, Nat.le_add_right _ _, hget j ▸ hj, fun i hi hfd => ?_⟩
    have := hmin (i - s) (by rw [hget, Nat.add_sub_cancel' hi]; exact hfd)
    omega

/-! ### The loop -/

/-- The ready ones of the `n` entries from index `i` on have places in the caller's array: entry `j` the place
    `j + o j`, with a shift that is at least `o₀` and nowhere decreases. -/
def PlacesFrom (binds : List DsuSocket) (fds : List PollFd) (fds' : Nat → PollFd) (i n o₀ : Nat) : Prop :=
  ∃ o : Nat → Nat, Monotone o ∧ (∀ j, o₀ ≤ o j) ∧ ∀ j, i ≤ j → j < i + n → (fds' j).revents ≠ 0 →
    (fds.map PollFd.fd)[j + o j]? = some (dsuOriginalfd binds (fds' j).fd)

theorem map_fd_modify (fds : List PollFd) (k : Nat) :
    (fds.modify k ({ · with revents := 1 })).map PollFd.fd = fds.map PollFd.fd := by
  refine List.ext_getElem? fun i => ?_
  rw [List.getElem?_map, List.getElem?_map, List.getElem?_modify]
  cases fds[i]? with
  | none => rfl
  | some e => by_cases hi : k = i <;> simp [hi]

/-- An entry that is not ready needs no place. -/
theorem placesFrom_succ_of_unready {n i o : Nat} (hr : (fds' i).revents = 0) :
    PlacesFrom binds fds fds' i (n + 1) o ↔ PlacesFrom binds fds fds' (i + 1) n o := by
  refine exists_congr fun s => and_congr_right' (and_congr_right' ⟨fun h j hj hj' => h j (by omega) (by omega), ?_⟩)
  intro h j hj hj' hrj
  have hne : j ≠ i := fun he => hrj (he ▸ hr)
  exact h j (by omega) (by omega) hrj

/-- A ready entry may as well have the first place that its descriptor has from index `i + o` on. -/
theorem placesFrom_succ_of_first {n i o k : Nat} (hr : (fds' i).revents ≠ 0) (hk : i + o ≤ k)
    (hfd : (fds.map PollFd.fd)[k]? = some (dsuOriginalfd binds (fds' i).fd))
    (hmin : ∀ j, i + o ≤ j → (fds.map PollFd.fd)[j]? = some (dsuOriginalfd binds (fds' i).fd) → k ≤ j) :
    PlacesFrom binds fds fds' i (n + 1) o ↔ PlacesFrom binds fds fds' (i + 1) n (k - i) := by
  constructor
  · -- The search stops at the place of the first entry or before.
    rintro ⟨s, hs, ho, hplace⟩
    have hle := hmin (i + s i) (by have := ho i; omega) (hplace i (Nat.le_refl _) (by omega) hr)
    refine ⟨fun j => max (s j) (k - i), fun a b hab => max_le_max_right _ (hs hab), fun j => le_max_right _ _,
      fun j hj hj' hrj => ?_⟩
    have hsj : s i ≤ s j := hs (by omega)
    simp only
    rw [max_eq_left (by omega)]
    exact hplace j (by omega) (by omega) hrj
  · -- The shift of the first entry is the one at which the search stops.
    rintro ⟨s, hs, ho, hplace⟩
    refine ⟨fun j => if j ≤ i then k - i else s j, fun a b hab => ?_, fun j => ?_, fun j hj hj' hrj => ?_⟩
    · have hab' := hs hab
      have hb := ho b
      simp only
      split
      · split
        · exact Nat.le_refl _
        · exact hb
      · rw [if_neg (by omega)]
        exact hab'
    · have hj := ho j
      simp only
      split
      · omega
      · omega
    · by_cases he : j = i
      · simp only [he, Nat.le_refl, if_true]
        rw [Nat.add_sub_cancel' (by omega)]
        exact hfd
      · simp only
        rw [if_neg (by omega)]
        exact hplace j (by omega) (by omega) hrj

theorem dsuSetReventsFrom_iff (n i o : Nat) (fds : List PollFd) :
    dsuSetReventsFrom binds fds' n i o fds ≠ none ↔ PlacesFrom binds fds fds' i n o := by
  induction n generalizing i o fds with
  | zero =>
    refine iff_of_true (by simp [dsuSetReventsFrom]) ⟨fun _ => o, fun _ _ _ => Nat.le_refl _, fun _ => Nat.le_refl _, ?_⟩
    intro j hj hj'
    omega
  | succ n ih =>
    unfold dsuSetReventsFrom
    by_cases hr : (fds' i).revents = 0
    · rw [if_pos hr, ih, placesFrom_succ_of_unready hr]
    · rw [if_neg hr]
      rcases seekFd_drop (dsuOriginalfd binds (fds' i).fd) fds (i + o) with ⟨hs, hne⟩ | ⟨k, hs, hk, hfd, hmin⟩ <;> rw [hs]
      · refine iff_of_false (by simp) ?_
        rintro ⟨s, -, ho, hplace⟩
        have hge := ho i
        exact hne (i + s i) (by omega) (hplace i (Nat.le_refl _) (by omega) hr)
      · simp only
        rw [ih, placesFrom_succ_of_first hr hk hfd hmin]
        unfold PlacesFrom
        rw [map_fd_modify]

/-- The ready entries of the translated array have places in the caller's array, in their order and nowhere
    closer together. -/
def Places (binds : List DsuSocket) (fds : List PollFd) (fds' : Nat → PollFd) (nfds' : Nat) : Prop :=
  ∃ o : Nat → Nat, Monotone o ∧ ∀ i < nfds', (fds' i).revents ≠ 0 →
    (fds.map PollFd.fd)[i + o i]? = some (dsuOriginalfd binds (fds' i).fd)

theorem dsuSetRevents_iff (nfds' : Nat) :
    dsuSetRevents binds fds fds' nfds' ≠ none ↔ Places binds fds fds' nfds' := by
  unfold dsuSetRevents
  rw [dsuSetReventsFrom_iff]
  refine exists_congr fun o => and_congr_right' ⟨fun h i hi => ?_, fun h => ⟨fun _ => Nat.zero_le _, fun i _ hi => ?_⟩⟩
  · exact h.2 i (Nat.zero_le _) (by omega)
  · exact h i (by omega)

theorem Places.congr (h : binds'.map DsuSocket.names = binds.map DsuSocket.names) {nfds' : Nat} :
    Places binds' fds fds' nfds' ↔ Places binds fds fds' nfds' := by
  unfold Places
  simp only [dsuOriginalfd_congr h]

/-! ### `ppoll` -/

section Call
variable (K) (p) (fds)

/-- What the kernel makes of the translated array in a `ppoll` that comes to its wait, with its length. -/
def Proc.polled (timeout : Option Nat) : Option ((Nat → PollFd) × Nat) :=
  let p := dsuInitializeEvent K p
  if p.exited then none
  else
    let wait := pollAsk K p fds
    (wait.proc.world.ppoll K wait.fds wait.nfds timeout).1.map fun found => (found.1, wait.nfds)

/-- The number of the caller's entries in the translated array. -/
def Proc.kept : Nat := pollKept K (dsuInitializeEvent K p) fds

/-- The array holds descriptors of the program alone: translated, each of them can be told, and none is an
    internal descriptor that the wait watches. -/
structure Proc.OwnArray : Prop where
  named : ∀ e ∈ fds, dsuOriginalfd p.binds (dsuShadowfd p.binds e.fd) = e.fd
  apart : ∀ r ∈ (dsuInitializeEvent K p).binds, ∀ c ∈ r.watched, dsuOriginalfd p.binds c ∉ fds.map PollFd.fd

end Call

variable {timeout : Option Nat}

/-- Without a result no entry is ready. -/
theorem places_of_none_ready {nfds' : Nat} (h : ∀ i < nfds', (fds' i).revents = 0) : Places binds fds fds' nfds' :=
  ⟨fun _ => 0, fun _ _ _ => Nat.le_refl _, fun i hi hr => absurd (h i hi) hr⟩

theorem World.ppoll_none_ready {w : World} {a : Nat → PollFd} {n : Nat}
    (h : (w.ppoll K a n timeout).1 = some (fds', 0)) : ∀ i < n, (fds' i).revents = 0 := by
  obtain ⟨ready, -, he⟩ := Option.map_eq_some_iff.mp h
  obtain ⟨hfds, hcount⟩ := Prod.ext_iff.mp he
  simp only at hfds hcount
  rw [hfds] at hcount
  intro i hi
  have := List.countP_eq_zero.mp hcount (fds' i) (mem_slice.mpr ⟨i, Nat.zero_le i, by omega, rfl⟩)
  simpa using this

theorem ppollRest_overrun_iff :
    (ppollRest K fds timeout p).2 ≠ .overrun ↔
      ∀ found, ((pollAsk K p fds).proc.world.ppoll K (pollAsk K p fds).fds (pollAsk K p fds).nfds timeout).1 = some found →
        Places p.binds fds found.1 (pollAsk K p fds).nfds := by
  have hask := pollAsk_evolves K p fds
  unfold ppollRest
  simp only
  cases hfound : ((pollAsk K p fds).proc.world.ppoll K (pollAsk K p fds).fds (pollAsk K p fds).nfds timeout).1 with
  | none => simp
  | some found =>
    obtain ⟨fds', result⟩ := found
    simp only [Option.some.injEq, forall_eq']
    split
    · rename_i hzero
      rw [hzero] at hfound
      exact iff_of_true (by simp) (places_of_none_ready (World.ppoll_none_ready hfound))
    · generalize hq : ({ (pollAsk K p fds).proc with
        world := ((pollAsk K p fds).proc.world.ppoll K (pollAsk K p fds).fds (pollAsk K p fds).nfds timeout).2 } : Proc) = q
      have hasked : p.Evolves q := hq ▸ hask.world (World.same_tick _)
      have hnames := (hasked.trans (pollServe_evolves K q fds' fds.length (pollAsk K p fds).nfds)).names
      rw [← Places.congr hnames, ← dsuSetRevents_iff]
      split
      · rename_i hnone
        simp [hnone]
      · rename_i hsome
        simp [hsome]

theorem ppoll_overrun_iff :
    (ppoll K fds timeout p).2 ≠ .overrun ↔ ∀ a ∈ p.polled K fds timeout, Places p.binds fds a.1 a.2 := by
  unfold ppoll Proc.polled
  simp only
  split
  · simp
  · simp only [ppollRest_overrun_iff, Places.congr (dsuInitializeEvent_evolves K p).names]
    constructor
    · intro h a ha
      obtain ⟨found, hfound, rfl⟩ := Option.map_eq_some_iff.mp ha
      exact h found hfound
    · intro h found hfound
      exact h (found.1, _) (Option.map_eq_some_iff.mpr ⟨found, hfound, rfl⟩)

/-! ### Arrays of the program's own descriptors -/

/-- The shift by which the kept entries lie in the caller's array. -/
theorem exists_shift (K : Kernel) (p : Proc) (fds : List PollFd) : ∃ o : Nat → Nat, Monotone o ∧ ∀ i < pollKept K p fds,
    ∃ e, fds[i + o i]? = some e ∧ ((pollAsk K p fds).fds i).fd = dsuShadowfd p.binds e.fd := by
  obtain ⟨f, hf⟩ := exists_places K p fds
  have hstrict : StrictMono f := f.strictMono
  refine ⟨fun i => f i - i, monotone_nat_of_le_succ fun i => ?_, fun i hi => ?_⟩
  · have hlt : f i < f (i + 1) := hstrict (Nat.lt_succ_self i)
    have hle : i ≤ f i := hstrict.le_apply
    omega
  · rw [Nat.add_sub_cancel' hstrict.le_apply]
    exact hf i hi

theorem places_iff_of_own (h : p.OwnArray K fds) {a : (Nat → PollFd) × Nat} (ha : a ∈ p.polled K fds timeout) :
    Places p.binds fds a.1 a.2 ↔
      ∀ i, p.kept K fds ≤ i → i < a.2 → (a.1 i).revents = 0 := by
  have hnames := (dsuInitializeEvent_evolves K p).names
  unfold Proc.polled at ha
  unfold Proc.kept
  obtain ⟨hnamed, hapart⟩ := h
  simp only at ha
  generalize dsuInitializeEvent K p = p' at ha hnames hapart ⊢
  split at ha
  · cases ha
  · obtain ⟨found, hfound, rfl⟩ := Option.map_eq_some_iff.mp ha
    have hfd := World.ppoll_fd hfound
    constructor
    · rintro ⟨o, -, hplace⟩ i hi hi'
      by_contra hr
      have hnew := (pollAsk_appended K p' fds).new i hi hi'
      rw [List.flatMap_def, asks_map (g := DsuSocket.watched) (fun _ => rfl) (pollAsk_asks K p' fds),
        ← List.flatMap_def] at hnew
      obtain ⟨r, hr', hc⟩ := List.mem_flatMap.mp hnew
      refine hapart r hr' _ hc ?_
      have := List.mem_of_getElem? (hplace i hi' hr)
      rwa [hfd] at this
    · intro hnone
      obtain ⟨o, hmono, hshift⟩ := exists_shift K p' fds
      refine ⟨o, hmono, fun i hi hr => ?_⟩
      have hkept : i < pollKept K p' fds := by
        by_contra hge
        exact hr (hnone i (Nat.not_lt.mp hge) hi)
      obtain ⟨e, he, hname⟩ := hshift i hkept
      rw [List.getElem?_map, he, hfd, hname, dsuShadowfd_congr hnames, hnamed e (List.mem_of_getElem? he)]
      rfl

/-- `dsu_set_revents` stays inside the caller's array if and only if the ready entries have places in it; in
    an array of the program's own descriptors they do as long as no internal entry is ready. -/
theorem setRevents_inside_iff :
    ((ppoll K fds timeout p).2 ≠ .overrun ↔ ∀ a ∈ p.polled K fds timeout, Places p.binds fds a.1 a.2) ∧
    (p.OwnArray K fds → ((ppoll K fds timeout p).2 ≠ .overrun ↔ ∀ a ∈ p.polled K fds timeout,
      ∀ i, p.kept K fds ≤ i → i < a.2 → (a.1 i).revents = 0)) := by
  refine ⟨ppoll_overrun_iff, fun hown => ppoll_overrun_iff.trans ?_⟩
  exact forall₂_congr fun a ha => places_iff_of_own hown ha

/-- A process with one bound socket polls it, and nothing becomes ready. -/
theorem setRevents_inside_own_array : ∃ p, (procMachine soloKernel).run .loaded [.socket, .bind 3 8080] = some p ∧
    p.OwnArray soloKernel [{ fd := 3, events := pollin, revents := 0 }] ∧
    ((ppoll soloKernel [{ fd := 3, events := pollin, revents := 0 }] (some 0) p).2 ≠ .overrun ↔
      ∀ a ∈ p.polled soloKernel [{ fd := 3, events := pollin, revents := 0 }] (some 0),
        ∀ i, p.kept soloKernel [{ fd := 3, events := pollin, revents := 0 }] ≤ i → i < a.2 → (a.1 i).revents = 0) := by
  have hown : ∀ p, (procMachine soloKernel).run .loaded [.socket, .bind 3 8080] = some p →
      p.OwnArray soloKernel [{ fd := 3, events := pollin, revents := 0 }] := by
    intro p hp
    cases hp
    constructor
    · intro e he
      cases List.mem_singleton.mp he
      rfl
    · intro r hr c hc
      cases List.mem_singleton.mp hr
      cases List.mem_singleton.mp hc
      decide
  exact ⟨_, rfl, hown _ rfl, setRevents_inside_iff.2 (hown _ rfl)⟩

/-- A new version connects, so that the second entry of the translated array is ready. -/
def connectKernel : Kernel := { soloKernel with ppoll := fun _ _ => some fun i => if i = 1 then 1 else 0 }

/-- A process polls its bound socket 3 when a new version connects: `dsu_set_revents` looks for descriptor 4 past
    the end of the array. -/
theorem setRevents_overrun : ∃ p, (procMachine connectKernel).run .loaded [.socket, .bind 3 8080] = some p ∧
    (ppoll connectKernel [{ fd := 3, events := pollin, revents := 0 }] none p).2 = .overrun :=
  ⟨_, rfl, rfl⟩

end OpenDSU
