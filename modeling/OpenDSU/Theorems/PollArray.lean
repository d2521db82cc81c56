import OpenDSU.Theorems.Names
import Mathlib.Data.List.Forall2
import Mathlib.Data.List.NodupEquivFin

/-! The array that `ppoll` hands to the kernel: the caller's entries under the names the kernel knows, less
those that are dropped, then an entry for each internal descriptor that is watched. -/

open Relation

namespace OpenDSU

variable {K : Kernel} {p q : Proc} {binds binds' : List DsuSocket} {w : World}

/-! ### The caller's entries -/

/-- An entry is dropped, or stands for its descriptor. -/
theorem dsuPrePollEntry_fd (e : PollFd) (st : List DsuSocket × World) :
    (dsuPrePollEntry K e st).1.fd = -1 ∨ (dsuPrePollEntry K e st).1.fd = dsuShadowfd st.1 e.fd := by
  obtain ⟨binds, w⟩ := st
  unfold dsuPrePollEntry dsuShadowfd
  simp only
  cases dsuSocketsSearchFd binds e.fd with
  | none => exact Or.inr rfl
  | some r =>
    simp only
    split
    · cases (tryMonitor K r false w).1 with
      | refused => exact Or.inl rfl
      | free => exact Or.inr rfl
      | locked => exact Or.inr rfl
    · exact Or.inl rfl

theorem walk_prePollEntry_fd (fds : List PollFd) (st : List DsuSocket × World)
    (h : st.1.map DsuSocket.names = binds.map DsuSocket.names) :
    List.Forall₂ (fun e e' => e'.fd = -1 ∨ e'.fd = dsuShadowfd binds e.fd) fds
      (walk (dsuPrePollEntry K) fds st).1 := by
  induction fds generalizing st with
  | nil => exact .nil
  | cons e fds ih =>
    have hnames := (changes_of_asks (dsuPrePollEntry_asks K e st)).names
    have he := dsuPrePollEntry_fd (K := K) e st
    rw [dsuShadowfd_congr h] at he
    exact .cons he (ih _ (hnames.trans h))

theorem slice_pollArray {β : Type} (f : PollFd → β) (fds : List PollFd) :
    slice (f ∘ pollArray fds) 0 fds.length = fds.map f := by
  rw [slice_comp]
  exact congrArg (List.map f) (slice_getD fds _)

section Ask
variable (K) (p)

/-- The caller's array after its descriptors are translated. -/
def pollTranslated (fds : List PollFd) : List PollFd := (walk (dsuPrePollEntry K) fds (p.binds, p.world)).1

/-- The number of the caller's entries that are kept. -/
def pollKept (fds : List PollFd) : Nat := (dsuPrePoll K fds p.binds p.world).1.1

theorem pollTranslated_length (fds : List PollFd) : (pollTranslated K p fds).length = fds.length :=
  (walk_prePollEntry_fd fds (p.binds, p.world) (rfl : _ = p.binds.map DsuSocket.names)).length_eq.symm

/-- Compression keeps the descriptors that are not -1, in their order. -/
theorem dsuCompressFds_spec (fds : List PollFd) :
    let l := (fds.map PollFd.fd).filter (!· == -1)
    (dsuCompressFds (pollArray fds) fds.length).1 = l.length ∧
    slice (PollFd.fd ∘ (dsuCompressFds (pollArray fds) fds.length).2) 0 l.length = l := by
  have hmove : ∀ a b : PollFd, PollFd.fd { a with fd := b.fd, events := b.events } = b.fd := fun _ _ => rfl
  have hdrop : ∀ a : PollFd, (a.fd == -1) = (PollFd.fd a == -1) := fun _ => rfl
  have hkeep : ∀ a : PollFd, PollFd.fd (id a) = id (PollFd.fd a) := fun _ => rfl
  have h := compact_spec 1 PollFd.fd (· == -1) id hmove hdrop hkeep 0 fds.length (pollArray fds)
  simp only [slice_pollArray, List.map_id, Nat.zero_add] at h
  exact ⟨h.1, h.2.1⟩

theorem pollKept_spec (fds : List PollFd) :
    pollKept K p fds ≤ fds.length ∧
    slice (PollFd.fd ∘ (dsuPrePoll K fds p.binds p.world).1.2) 0 (pollKept K p fds) =
      ((pollTranslated K p fds).map PollFd.fd).filter (!· == -1) := by
  obtain ⟨hlen, hslice⟩ := dsuCompressFds_spec (pollTranslated K p fds)
  have hkept : pollKept K p fds = (((pollTranslated K p fds).map PollFd.fd).filter (!· == -1)).length := hlen
  refine ⟨?_, ?_⟩
  · rw [hkept, ← pollTranslated_length K p fds, ← List.length_map (f := PollFd.fd)]
    exact List.length_filter_le _ _
  · rw [hkept]
    exact hslice

end Ask

/-! ### The appended entries -/

/-- Entries with descriptors of `L` were appended to an array. -/
structure Appended (L : List Int) (a a' : Nat × (Nat → PollFd)) : Prop where
  le : a.1 ≤ a'.1
  kept : ∀ i < a.1, a'.2 i = a.2 i
  new : ∀ i, a.1 ≤ i → i < a'.1 → (a'.2 i).fd ∈ L

theorem Appended.refl (L : List Int) (a : Nat × (Nat → PollFd)) : Appended L a a :=
  ⟨Nat.le_refl _, fun _ _ => rfl, fun _ h h' => absurd h' (Nat.not_lt.mpr h)⟩

theorem Appended.trans {L M : List Int} {a b c : Nat × (Nat → PollFd)} (h : Appended L a b) (h' : Appended M b c) :
    Appended (L ++ M) a c where
  le := h.le.trans h'.le
  kept i hi := (h'.kept i (hi.trans_le h.le)).trans (h.kept i hi)
  new i hi hi' := by
    by_cases hb : i < b.1
    · rw [h'.kept i hb]
      exact List.mem_append_left _ (h.new i hi hb)
    · exact List.mem_append_right _ (h'.new i (Nat.not_lt.mp hb) hi')

theorem appended_pollAppend (a : Nat × (Nat → PollFd)) (fd : Int) : Appended [fd] a (pollAppend a fd) := by
  unfold pollAppend
  split
  · refine ⟨Nat.le_succ _, fun i hi => Function.update_of_ne (Nat.ne_of_lt hi) _ _, fun i hi hi' => ?_⟩
    have : i = a.1 := Nat.le_antisymm (Nat.lt_succ_iff.mp hi') hi
    simp [this]
  · exact .refl _ a

theorem appended_foldl (cs : List Int) (a : Nat × (Nat → PollFd)) : Appended cs a (cs.foldl pollAppend a) := by
  induction cs generalizing a with
  | nil => exact .refl _ a
  | cons c cs ih => exact (appended_pollAppend a c).trans (ih _)

theorem dsuSniffConnPoll_eq (r : DsuSocket) (a : Nat × (Nat → PollFd)) :
    dsuSniffConnPoll r a = (r, r.watched.foldl pollAppend a) := by
  unfold dsuSniffConnPoll DsuSocket.watched
  split <;> rfl

theorem appended_sniff (l : List DsuSocket) (a : Nat × (Nat → PollFd)) :
    Appended (l.flatMap DsuSocket.watched) a (walk dsuSniffConnPoll l a).2 := by
  induction l generalizing a with
  | nil => exact .refl _ a
  | cons r l ih =>
    rw [walk_cons, List.flatMap_cons, dsuSniffConnPoll_eq]
    exact (appended_foldl r.watched a).trans (ih _)

/-! ### The array at the wait -/

section Wait
variable (K) (p)

theorem pollAsk_appended (fds : List PollFd) :
    Appended ((pollAsk K p fds).proc.binds.flatMap DsuSocket.watched) (dsuPrePoll K fds p.binds p.world).1
      ((pollAsk K p fds).nfds, (pollAsk K p fds).fds) := by
  have hbinds : (pollAsk K p fds).proc.binds = (dsuPrePoll K fds p.binds p.world).2.1 := walk_sniffConnPoll_binds _ _
  rw [hbinds]
  exact appended_sniff _ _

/-- Each kept entry has a place in the caller's array, in the same order. -/
theorem exists_places (fds : List PollFd) : ∃ f : Nat ↪o Nat, ∀ i < pollKept K p fds,
    ∃ e, fds[f i]? = some e ∧ ((pollAsk K p fds).fds i).fd = dsuShadowfd p.binds e.fd := by
  obtain ⟨-, hslice⟩ := pollKept_spec K p fds
  have hall := walk_prePollEntry_fd (K := K) fds (p.binds, p.world) (rfl : _ = p.binds.map DsuSocket.names)
  obtain ⟨f, hf⟩ := List.sublist_iff_exists_orderEmbedding_getElem?_eq.mp
    (List.filter_sublist (p := (!· == (-1 : Int))) (l := (pollTranslated K p fds).map PollFd.fd))
  refine ⟨f, fun i hi => ?_⟩
  have hget : (((pollTranslated K p fds).map PollFd.fd).filter (!· == -1))[i]? =
      some ((pollAsk K p fds).fds i).fd := by
    have hsame : (pollAsk K p fds).fds i = (dsuPrePoll K fds p.binds p.world).1.2 i :=
      (pollAsk_appended K p fds).kept i hi
    rw [← hslice, hsame]
    simp [slice, hi]
  have hne : ((pollAsk K p fds).fds i).fd ≠ -1 := by
    simpa using List.of_mem_filter (List.mem_of_getElem? hget)
  rw [hf, List.getElem?_map] at hget
  obtain ⟨e', he', hfd⟩ := Option.map_eq_some_iff.mp hget
  obtain ⟨hlt, he'⟩ := List.getElem?_eq_some_iff.mp he'
  have hlt' : f i < fds.length := by rwa [pollTranslated_length] at hlt
  refine ⟨fds[f i], List.getElem?_eq_getElem hlt', ?_⟩
  rcases hall.get hlt' hlt with h | h
  · exact absurd (by rw [← hfd, ← he']; exact h) hne
  · rw [← hfd, ← he']
    exact h

end Wait

theorem World.ppoll_fd {fds fds' : Nat → PollFd} {nfds result : Nat} {timeout : Option Nat}
    (h : (w.ppoll K fds nfds timeout).1 = some (fds', result)) (i : Nat) : (fds' i).fd = (fds i).fd := by
  obtain ⟨ready, -, he⟩ := Option.map_eq_some_iff.mp h
  cases he
  simp only
  split <;> rfl

end OpenDSU
