import Mathlib.Logic.Relation

/-! Loops, given by what one pass does to the state: `none` where the test of the loop fails.

`loop` runs a loop with fuel. That a loop ends is said with `Ends`: some fuel is enough. -/

open Relation

section Loop
variable {σ τ : Type}

/-- The state in which the loop ends, when `fuel` is enough. -/
def loop (pass : σ → Option σ) : Nat → σ → Option σ
  | 0, _ => none
  | fuel + 1, s =>
    match pass s with
    | none => some s
    | some t => loop pass fuel t

def Ends (pass : σ → Option σ) (s t : σ) : Prop := ∃ fuel, loop pass fuel s = some t

/-- The loop comes from `s` to `t`. -/
def Visits (pass : σ → Option σ) : σ → σ → Prop := ReflTransGen fun s t => pass s = some t

variable {pass : σ → Option σ} {pass' : τ → Option τ} {s t u : σ}

theorem loop_succ_of_some {fuel : Nat} (h : pass s = some t) : loop pass (fuel + 1) s = loop pass fuel t := by
  rw [loop, h]

theorem Ends.done (h : pass s = none) : Ends pass s s := ⟨1, by rw [loop, h]⟩

theorem Ends.next (h : pass s = some t) : Ends pass t u → Ends pass s u
  | ⟨fuel, hu⟩ => ⟨fuel + 1, (loop_succ_of_some h).trans hu⟩

theorem Ends.of_visits (h : Visits pass s t) (h' : Ends pass t u) : Ends pass s u := by
  induction h using ReflTransGen.head_induction_on with
  | refl => exact h'
  | head hs _ ih => exact ih.next hs

/-- The invariant rule: what holds at the start and is kept by every pass holds wherever the loop comes. -/
theorem Visits.invariant {I : σ → Prop} (keep : ∀ s t, I s → pass s = some t → I t) (h : Visits pass s t) (hs : I s) :
    I t := by
  induction h with
  | refl => exact hs
  | tail _ ht ih => exact keep _ _ ih ht

/-- A loop on other states, which goes along with this one as long as the invariant `I` holds. -/
theorem Ends.map {f : σ → τ} {I : σ → Prop} (keep : ∀ s t, I s → pass s = some t → I t)
    (same : ∀ s, I s → pass' (f s) = (pass s).map f) (hs : I s) (h : Ends pass s t) : Ends pass' (f s) (f t) := by
  obtain ⟨fuel, h⟩ := h
  induction fuel generalizing s with
  | zero => cases h
  | succ fuel ih =>
    have hf := same s hs
    unfold loop at h
    split at h
    · rename_i hend
      cases h
      exact .done (by rw [hf, hend]; rfl)
    · rename_i u hu
      exact (ih (keep s u hs hu) h).next (by rw [hf, hu]; rfl)

theorem Visits.of_map {f : σ → τ} {I : σ → Prop} (keep : ∀ s t, I s → pass s = some t → I t)
    (same : ∀ s, I s → pass' (f s) = (pass s).map f) (hs : I s) {v : τ} (h : Visits pass' (f s) v) :
    ∃ u, v = f u ∧ I u := by
  induction h with
  | refl => exact ⟨s, rfl, hs⟩
  | tail _ hv ih =>
    obtain ⟨u, rfl, hu⟩ := ih
    rw [same u hu] at hv
    obtain ⟨t, ht, rfl⟩ := Option.map_eq_some_iff.mp hv
    exact ⟨t, rfl, keep u t hu ht⟩

end Loop
