import Mathlib.Logic.Function.Basic

/-! In-place compaction of an array, as C programs write it: the entries to drop are overwritten by shifting
the rest of the array to the left, one entry at a time.

An array is a function of the index; the length is kept beside it. `move a b` is what an entry `a` becomes
when `b` is copied over it, which may leave some fields of `a` in place. -/

section Compact
variable {α β : Type}

/-- The entries from index `i` on, `n` of them. -/
def slice (buf : Nat → α) (i n : Nat) : List α := (List.range' i n).map buf

/-- Copy the right neighbour over each of the `n` entries from `i` on. -/
def shiftLeft (move : α → α → α) : Nat → Nat → (Nat → α) → Nat → α
  | _, 0, buf => buf
  | i, n + 1, buf => shiftLeft move (i + 1) n (Function.update buf i (move (buf i) (buf (i + 1))))

/-- Go through the `n` entries from `i` on, drop some and change the others; the index after the last one
    kept, and the array. `extra` entries beyond the last are moved as well. -/
def compact (move : α → α → α) (drop : α → Bool) (keep : α → α) (extra : Nat) :
    Nat → Nat → (Nat → α) → Nat × (Nat → α)
  | i, 0, buf => (i, buf)
  | i, n + 1, buf =>
    if drop (buf i) then compact move drop keep extra i n (shiftLeft move i (n + extra) buf)
    else compact move drop keep extra (i + 1) n (Function.update buf i (keep (buf i)))

/-- The same where the decisions may fail. -/
def compactM (move : α → α → α) (drop : α → Option Bool) (keep : α → Option α) (extra : Nat) :
    Nat → Nat → (Nat → α) → Option (Nat × (Nat → α))
  | i, 0, buf => some (i, buf)
  | i, n + 1, buf =>
    (drop (buf i)).bind fun d =>
      if d then compactM move drop keep extra i n (shiftLeft move i (n + extra) buf)
      else (keep (buf i)).bind fun a => compactM move drop keep extra (i + 1) n (Function.update buf i a)

theorem compactM_eq {move : α → α → α} {drop : α → Option Bool} {keep : α → Option α} {drop' : α → Bool} {keep' : α → α}
    {extra : Nat} (hdrop : ∀ a, drop a = some (drop' a)) (hkeep : ∀ a, keep a = some (keep' a)) (i n : Nat)
    (buf : Nat → α) : compactM move drop keep extra i n buf = some (compact move drop' keep' extra i n buf) := by
  induction n generalizing i buf with
  | zero => rfl
  | succ n ih =>
    unfold compactM compact
    simp only [hdrop, hkeep, Option.bind_some, ih]
    split <;> rfl

@[simp] theorem slice_zero (buf : Nat → α) (i : Nat) : slice buf i 0 = [] := rfl

theorem slice_succ (buf : Nat → α) (i n : Nat) : slice buf i (n + 1) = buf i :: slice buf (i + 1) n := by
  simp [slice, List.range'_succ]

theorem slice_append (buf : Nat → α) (i n m : Nat) : slice buf i (n + m) = slice buf i n ++ slice buf (i + n) m := by
  unfold slice
  rw [← List.range'_append_1, List.map_append]

@[simp] theorem length_slice (buf : Nat → α) (i n : Nat) : (slice buf i n).length = n := by simp [slice]

theorem slice_congr {f g : Nat → α} {i n : Nat} (h : ∀ j, i ≤ j → j < i + n → f j = g j) :
    slice f i n = slice g i n := by
  refine List.map_congr_left fun j hj => ?_
  rw [List.mem_range'_1] at hj
  exact h j hj.1 hj.2

theorem mem_slice {buf : Nat → α} {i n : Nat} {a : α} :
    a ∈ slice buf i n ↔ ∃ j, i ≤ j ∧ j < i + n ∧ buf j = a := by
  simp [slice, List.mem_map, List.mem_range'_1, and_assoc]

theorem slice_shift (f : Nat → α) (i n : Nat) : slice (fun j => f (j + 1)) i n = slice f (i + 1) n := by
  induction n generalizing i with
  | zero => rfl
  | succ n ih => rw [slice_succ, slice_succ, ih]

theorem slice_comp (f : α → β) (buf : Nat → α) (i n : Nat) : slice (f ∘ buf) i n = (slice buf i n).map f := by
  simp [slice]

/-- An array that begins with the elements of a list. -/
theorem slice_getD (l : List α) (buf : Nat → α) : slice (fun i => l.getD i (buf i)) 0 l.length = l := by
  refine List.ext_getElem (by simp) fun i hi hi' => ?_
  simp [slice, List.getD_eq_getElem?_getD, hi']

theorem shiftLeft_apply (move : α → α → α) (i n : Nat) (buf : Nat → α) (j : Nat) :
    shiftLeft move i n buf j = if i ≤ j ∧ j < i + n then move (buf j) (buf (j + 1)) else buf j := by
  induction n generalizing i buf with
  | zero => rw [shiftLeft, if_neg (by omega)]
  | succ n ih =>
    rw [shiftLeft, ih]
    by_cases hi : j = i
    · subst hi
      rw [if_neg (by omega), if_pos (by omega), Function.update_self]
    · have hnext : Function.update buf i (move (buf i) (buf (i + 1))) j = buf j := Function.update_of_ne hi _ _
      by_cases hj : i + 1 ≤ j ∧ j < i + 1 + n
      · rw [if_pos hj, if_pos (by omega), hnext, Function.update_of_ne (by omega)]
      · rw [if_neg hj, if_neg (by omega), hnext]

/-- What compaction does to the part `π` of the entries, when copying an entry copies that part and the
    choice of the entries depends on it alone: the entries to keep remain, in order and changed by `g`. -/
theorem compact_spec {move : α → α → α} {drop : α → Bool} {keep : α → α} (extra : Nat) (π : α → β)
    (d : β → Bool) (g : β → β) (hmove : ∀ a b, π (move a b) = π b) (hdrop : ∀ a, drop a = d (π a))
    (hkeep : ∀ a, π (keep a) = g (π a)) (i n : Nat) (buf : Nat → α) :
    let r := compact move drop keep extra i n buf
    let l := ((slice (π ∘ buf) i n).filter (!d ·)).map g
    r.1 = i + l.length ∧ slice (π ∘ r.2) i l.length = l ∧ ∀ j < i, r.2 j = buf j := by
  induction n generalizing i buf with
  | zero => simp [compact]
  | succ n ih =>
    simp only [compact, slice_succ, Function.comp_apply]
    by_cases hd : drop (buf i) = true
    · -- The rest of the array moves to the place of the entry.
      have hrest : slice (π ∘ shiftLeft move i (n + extra) buf) i n = slice (π ∘ buf) (i + 1) n := by
        rw [← slice_shift]
        refine slice_congr fun j hj hjn => ?_
        simp only [Function.comp_apply, shiftLeft_apply]
        rw [if_pos (by omega), hmove]
      have := ih i (shiftLeft move i (n + extra) buf)
      rw [hrest] at this
      rw [if_pos hd, List.filter_cons_of_neg (by simp [← hdrop, hd])]
      refine ⟨this.1, this.2.1, fun j hj => ?_⟩
      rw [this.2.2 j hj, shiftLeft_apply, if_neg (by omega)]
    · have hrest : slice (π ∘ Function.update buf i (keep (buf i))) (i + 1) n = slice (π ∘ buf) (i + 1) n := by
        refine slice_congr fun j hj _ => ?_
        simp only [Function.comp_apply]
        rw [Function.update_of_ne (by omega)]
      obtain ⟨hlen, hslice, hpre⟩ := ih (i + 1) (Function.update buf i (keep (buf i)))
      rw [hrest] at hlen hslice
      rw [if_neg hd, List.filter_cons_of_pos (by simp [← hdrop, hd]), List.map_cons]
      refine ⟨?_, ?_, fun j hj => ?_⟩
      · rw [hlen, List.length_cons]
        omega
      · rw [List.length_cons, slice_succ, hslice, Function.comp_apply, hpre i (by omega), Function.update_self, hkeep]
      · rw [hpre j (by omega), Function.update_of_ne (by omega)]

end Compact
