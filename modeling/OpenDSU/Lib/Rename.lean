import Mathlib.Data.Finset.Image
import Mathlib.Data.Finset.Card

/-! Renaming the members of a finite set in place, one pair of names after the other.

As long as no new name is the old name of a later pair, the outcome is the image of the set under the table of
the pairs. -/

section Rename
variable {α : Type} [DecidableEq α]

/-- The name that the table gives an element, which is its own where the table has none. -/
def nameOf (table : List (α × α)) (a : α) : α := (table.lookup a).getD a

/-- Replace `a` by `b`. -/
def rename (a b : α) (s : Finset α) : Finset α := if a ∈ s then insert b (s.erase a) else s

def renameAll (table : List (α × α)) (s : Finset α) : Finset α := table.foldl (fun s p => rename p.1 p.2 s) s

theorem nameOf_cons (p : α × α) (table : List (α × α)) (a : α) :
    nameOf (p :: table) a = if a = p.1 then p.2 else nameOf table a := by
  unfold nameOf
  rw [List.lookup_cons]
  by_cases h : a = p.1
  · simp [h]
  · simp [h, beq_eq_false_iff_ne.mpr h]

theorem nameOf_of_forall_ne {table : List (α × α)} {a : α} (h : ∀ p ∈ table, a ≠ p.1) : nameOf table a = a := by
  induction table with
  | nil => rfl
  | cons p table ih =>
    rw [nameOf_cons, if_neg (h p List.mem_cons_self)]
    exact ih fun q hq => h q (List.mem_cons_of_mem _ hq)

theorem rename_mono (a b : α) {s t : Finset α} (h : s ⊆ t) : rename a b s ⊆ rename a b t := by
  intro x hx
  unfold rename at hx ⊢
  by_cases hs : a ∈ s
  · rw [if_pos hs] at hx
    rw [if_pos (h hs)]
    exact Finset.insert_subset_insert _ (Finset.erase_subset_erase _ h) hx
  · rw [if_neg hs] at hx
    split
    · exact Finset.mem_insert_of_mem (Finset.mem_erase.mpr ⟨fun he => hs (he ▸ hx), h hx⟩)
    · exact h hx

theorem renameAll_mono (table : List (α × α)) {s t : Finset α} (h : s ⊆ t) : renameAll table s ⊆ renameAll table t := by
  induction table generalizing s t with
  | nil => exact h
  | cons p table ih => exact ih (rename_mono p.1 p.2 h)

theorem renameAll_eq_image {table : List (α × α)} (h : table.Pairwise fun p q => p.2 ≠ q.1) (s : Finset α) :
    renameAll table s = s.image (nameOf table) := by
  induction table generalizing s with
  | nil => exact (Finset.image_id (s := s)).symm
  | cons p table ih =>
    obtain ⟨hp, htable⟩ := List.pairwise_cons.mp h
    -- The new name stays to the end.
    have hnew : nameOf table p.2 = p.2 := nameOf_of_forall_ne hp
    have hrest : ∀ t : Finset α, p.1 ∉ t → t.image (nameOf (p :: table)) = t.image (nameOf table) := by
      intro t ht
      refine Finset.image_congr fun x hx => ?_
      have hne : x ≠ p.1 := fun he => ht (he ▸ hx)
      exact (nameOf_cons p table x).trans (if_neg hne)
    change renameAll table (rename p.1 p.2 s) = _
    rw [ih htable, rename]
    split
    · rename_i hs
      rw [Finset.image_insert, hnew, ← hrest _ (Finset.notMem_erase p.1 s)]
      conv_rhs => rw [← Finset.insert_erase hs, Finset.image_insert, nameOf_cons, if_pos rfl]
    · rename_i hs
      exact (hrest s hs).symm

/-- The way back from the name of an element leads to the element or to one of the table. -/
theorem nameOf_swap_mem (table : List (α × α)) (a : α) :
    nameOf (table.map Prod.swap) (nameOf table a) = a ∨
      nameOf (table.map Prod.swap) (nameOf table a) ∈ table.map Prod.fst := by
  induction table with
  | nil => exact Or.inl rfl
  | cons p table ih =>
    rw [List.map_cons, nameOf_cons, nameOf_cons]
    by_cases ha : a = p.1
    · simp [ha]
    · rw [if_neg ha]
      split
      · simp
      · exact ih.imp_right (List.mem_cons_of_mem _)

/-- Where the old names are distinct, a name that is taken back and given again is the same. -/
theorem nameOf_nameOf_swap {table : List (α × α)} (h : table.Pairwise fun p q => p.1 ≠ q.1) (a : α) :
    nameOf table (nameOf (table.map Prod.swap) (nameOf table a)) = nameOf table a := by
  induction table with
  | nil => rfl
  | cons p table ih =>
    obtain ⟨hp, htable⟩ := List.pairwise_cons.mp h
    rw [List.map_cons, nameOf_cons p table a, nameOf_cons p.swap]
    by_cases ha : a = p.1
    · simp [ha, nameOf_cons]
    · rw [if_neg ha]
      split
      · rename_i hback
        exact (nameOf_cons p table p.1).trans ((if_pos rfl).trans hback.symm)
      · have hne : nameOf (table.map Prod.swap) (nameOf table a) ≠ p.1 := by
          intro he
          rcases nameOf_swap_mem table a with hself | hmem
          · exact ha (hself.symm.trans he)
          · obtain ⟨q, hq, hqe⟩ := List.mem_map.mp hmem
            exact hp q hq (he.symm.trans hqe.symm)
        exact (nameOf_cons p table _).trans ((if_neg hne).trans (ih htable))

end Rename
