import OpenDSU.Lib.Places
import Mathlib.Data.List.Nodup
import Mathlib.Logic.Function.Basic

/-! Finite tables: functions to `Option` that a step changes at one key, and lists whose elements have distinct keys
and that hold such a table. -/

open Function

section Tables
variable {κ α : Type} {f : κ → Option α} {k k' : κ} {a b : α}

/-- The elements of the list have distinct keys and are those of the table. -/
structure Keyed (key : α → κ) (l : List α) (f : κ → Option α) : Prop where
  nodup : (l.map key).Nodup
  mem : ∀ a, a ∈ l ↔ f (key a) = some a

variable {key : α → κ} {l : List α} {i : Nat}

theorem Keyed.nil : Keyed key [] fun _ => none := ⟨List.nodup_nil, by simp⟩

theorem Keyed.congr {g : κ → Option α} (h : Keyed key l f) (hfg : ∀ k, g k = f k) : Keyed key l g :=
  (funext hfg : g = f) ▸ h

/-- The place of an element of the table. -/
theorem Keyed.get (h : Keyed key l f) (hf : f (key a) = some a) : ∃ i : Nat, l[i]? = some a :=
  List.getElem?_of_mem ((h.mem a).mpr hf)

/-! ### One key -/

variable [DecidableEq κ]

theorem update_eq_some : update f k (some a) k' = some b ↔ k' = k ∧ a = b ∨ k' ≠ k ∧ f k' = some b := by
  by_cases hk : k' = k
  · subst hk
    simp
  · simp [hk]

theorem update_none_eq_some : update f k none k' = some b ↔ k' ≠ k ∧ f k' = some b := by
  by_cases hk : k' = k
  · subst hk
    simp
  · simp [hk]

theorem Keyed.append (h : Keyed key l f) (ha : f (key a) = none) : Keyed key (l ++ [a]) (update f (key a) (some a)) where
  nodup := by
    rw [List.map_append, List.nodup_append]
    refine ⟨h.nodup, by simp, ?_⟩
    rintro k hk _ hk' rfl
    obtain ⟨b, hb, rfl⟩ := List.mem_map.mp hk
    have : key b = key a := by simpa using hk'
    have hb' := (h.mem b).mp hb
    rw [this, ha] at hb'
    cases hb'
  mem b := by
    rw [List.mem_append, List.mem_singleton, update_eq_some, h.mem b]
    by_cases hk : key b = key a
    · rw [hk, ha]
      simp [eq_comm]
    · have hne : b ≠ a := fun he => hk (by rw [he])
      simp [hk, hne]

theorem Keyed.set (h : Keyed key l f) (hi : l[i]? = some a) (hk : key b = key a) :
    Keyed key (l.set i b) (update f (key a) (some b)) where
  nodup := by
    have : (l.set i b).map key = l.map key := by
      rw [List.map_set, hk]
      exact set_getElem?_self (by simp [hi])
    rw [this]
    exact h.nodup
  mem d := by
    obtain ⟨l₁, l₂, hsplit, hset, -⟩ := split_getElem? hi
    rw [hset, update_eq_some]
    have hnodup := h.nodup
    rw [hsplit, List.map_append, List.map_cons, List.nodup_append] at hnodup
    obtain ⟨-, hcons, hdisj⟩ := hnodup
    have hmem := h.mem d
    rw [hsplit] at hmem
    simp only [List.mem_append, List.mem_cons] at hmem ⊢
    by_cases hd : key d = key a
    · have h₁ : d ∉ l₁ := fun hin => hdisj _ (List.mem_map_of_mem hin) _ List.mem_cons_self hd
      have h₂ : d ∉ l₂ := fun hin => (List.nodup_cons.mp hcons).1 (hd ▸ List.mem_map_of_mem hin)
      simp [h₁, h₂, hd, eq_comm]
    · have hne : d ≠ b := fun he => hd (by rw [he, hk])
      have hne' : d ≠ a := fun he => hd (by rw [he])
      simpa [hd, hne, hne'] using hmem

theorem Keyed.eraseIdx (h : Keyed key l f) (hi : l[i]? = some a) : Keyed key (l.eraseIdx i) (update f (key a) none) where
  nodup := h.nodup.sublist ((List.eraseIdx_sublist l i).map key)
  mem d := by
    obtain ⟨l₁, l₂, hsplit, -, herase⟩ := split_getElem? hi
    rw [herase, update_none_eq_some]
    have hnodup := h.nodup
    rw [hsplit, List.map_append, List.map_cons, List.nodup_append] at hnodup
    obtain ⟨-, hcons, hdisj⟩ := hnodup
    have hmem := h.mem d
    rw [hsplit] at hmem
    simp only [List.mem_append, List.mem_cons] at hmem ⊢
    by_cases hd : key d = key a
    · have h₁ : d ∉ l₁ := fun hin => hdisj _ (List.mem_map_of_mem hin) _ List.mem_cons_self hd
      have h₂ : d ∉ l₂ := fun hin => (List.nodup_cons.mp hcons).1 (hd ▸ List.mem_map_of_mem hin)
      simp [h₁, h₂, hd]
    · have hne' : d ≠ a := fun he => hd (by rw [he])
      simpa [hd, hne'] using hmem

/-- The elements with the key of one of them are that one. -/
theorem Keyed.filter_key (h : Keyed key l f) (ha : a ∈ l) : l.filter (fun b => key b == key a) = [a] := by
  obtain ⟨l₁, l₂, rfl⟩ := List.append_of_mem ha
  have hnodup := h.nodup
  rw [List.map_append, List.map_cons, List.nodup_append] at hnodup
  obtain ⟨-, hcons, hdisj⟩ := hnodup
  have h₁ : l₁.filter (fun b => key b == key a) = [] := by
    rw [List.filter_eq_nil_iff]
    intro b hb hk
    exact hdisj _ (List.mem_map_of_mem hb) _ List.mem_cons_self (beq_iff_eq.mp hk)
  have h₂ : l₂.filter (fun b => key b == key a) = [] := by
    rw [List.filter_eq_nil_iff]
    intro b hb hk
    exact (List.nodup_cons.mp hcons).1 (beq_iff_eq.mp hk ▸ List.mem_map_of_mem hb)
  simp [List.filter_append, h₁, h₂]

end Tables
