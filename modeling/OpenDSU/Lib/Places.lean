import Mathlib.Data.List.Basic

/-! The elements of a list by their places: what storing another element at a place, or removing it, does to
membership and to a count. -/

section Places
variable {α : Type} {l : List α} {i : Nat} {x y z : α}

/-- The element at a place splits the list; storing another one there or removing it keeps both parts. -/
theorem split_getElem? (h : l[i]? = some x) :
    ∃ l₁ l₂, l = l₁ ++ x :: l₂ ∧ (∀ y, l.set i y = l₁ ++ y :: l₂) ∧ l.eraseIdx i = l₁ ++ l₂ := by
  induction l generalizing i with
  | nil => simp at h
  | cons a l ih =>
    cases i with
    | zero =>
      simp only [List.getElem?_cons_zero, Option.some.injEq] at h
      subst h
      exact ⟨[], l, rfl, fun _ => rfl, rfl⟩
    | succ i =>
      simp only [List.getElem?_cons_succ] at h
      obtain ⟨l₁, l₂, hl, hset, herase⟩ := ih h
      exact ⟨a :: l₁, l₂, by simp [hl], fun y => by simp [hset], by simp [herase]⟩

theorem mem_set_cases (h : l[i]? = some x) (hz : z ∈ l.set i y) : z = y ∨ z ∈ l := by
  obtain ⟨l₁, l₂, rfl, hset, -⟩ := split_getElem? h
  rw [hset] at hz
  simp only [List.mem_append, List.mem_cons] at hz ⊢
  rcases hz with hz | rfl | hz
  · exact Or.inr (Or.inl hz)
  · exact Or.inl rfl
  · exact Or.inr (Or.inr (Or.inr hz))

theorem mem_set_self (h : l[i]? = some x) : y ∈ l.set i y := by
  obtain ⟨l₁, l₂, rfl, hset, -⟩ := split_getElem? h
  simp [hset]

/-- Every other element stays when one is stored. -/
theorem mem_set_of_mem (h : l[i]? = some x) (hz : z ∈ l) : z = x ∨ z ∈ l.set i y := by
  obtain ⟨l₁, l₂, rfl, hset, -⟩ := split_getElem? h
  rw [hset]
  simp only [List.mem_append, List.mem_cons] at hz ⊢
  rcases hz with hz | rfl | hz
  · exact Or.inr (Or.inl hz)
  · exact Or.inl rfl
  · exact Or.inr (Or.inr (Or.inr hz))

theorem mem_iff_mem_eraseIdx (h : l[i]? = some x) : z ∈ l ↔ z = x ∨ z ∈ l.eraseIdx i := by
  obtain ⟨l₁, l₂, rfl, -, herase⟩ := split_getElem? h
  rw [herase]
  simp only [List.mem_append, List.mem_cons]
  exact or_left_comm

theorem set_getElem?_self (h : l[i]? = some x) : l.set i x = l := by
  obtain ⟨l₁, l₂, rfl, hset, -⟩ := split_getElem? h
  exact hset x

/-- A symmetric relation does not depend on the place of an element. -/
theorem pairwise_set_iff {R : α → α → Prop} (hsymm : ∀ {x y}, R x y → R y x) (h : l[i]? = some x) :
    (l.set i y).Pairwise R ↔ (∀ z ∈ l.eraseIdx i, R y z) ∧ (l.eraseIdx i).Pairwise R := by
  obtain ⟨l₁, l₂, -, hset, herase⟩ := split_getElem? h
  rw [hset, herase, List.pairwise_middle hsymm, List.pairwise_cons]

/-! ### Counting -/

variable {p : α → Bool}

theorem countP_set_add (h : l[i]? = some x) (y : α) :
    (l.set i y).countP p + (if p x then 1 else 0) = l.countP p + (if p y then 1 else 0) := by
  obtain ⟨l₁, l₂, rfl, hset, -⟩ := split_getElem? h
  rw [hset]
  simp only [List.countP_append, List.countP_cons]
  omega

theorem countP_eraseIdx_add (h : l[i]? = some x) :
    (l.eraseIdx i).countP p + (if p x then 1 else 0) = l.countP p := by
  obtain ⟨l₁, l₂, rfl, -, herase⟩ := split_getElem? h
  rw [herase]
  simp only [List.countP_append, List.countP_cons]
  omega

/-- Of the elements that count, at most one is in the list. -/
theorem pairwise_of_countP_le_one (h : l.countP p ≤ 1) : l.Pairwise fun x y => ¬(p x = true ∧ p y = true) := by
  induction l with
  | nil => exact .nil
  | cons x l ih =>
    rw [List.countP_cons] at h
    refine List.pairwise_cons.mpr ⟨?_, ih (by omega)⟩
    rintro y hy ⟨hx, hpy⟩
    have := List.countP_pos_iff.mpr ⟨y, hy, hpy⟩
    rw [if_pos hx] at h
    omega

end Places
