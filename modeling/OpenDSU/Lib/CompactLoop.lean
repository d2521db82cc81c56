import OpenDSU.Lib.Compact
import OpenDSU.Lib.Loop

/-! In-place compaction as two nested loops: the outer one goes through the entries, the inner one moves the rest
of the array over an entry that is dropped. Then the bound is lowered and the index stays. -/

open Relation

section CompactLoop
variable {α : Type}

/-- At the test of the outer loop, or of the inner one. -/
inductive Cursor where
  | scan (i : Nat)
  | shift (i j : Nat)

structure Compacting (α : Type) where
  cursor : Cursor
  bound : Nat
  buf : Nat → α

/-- One pass of one of the loops. -/
def compactPass (move : α → α → α) (drop : α → Bool) (keep : α → α) (extra : Nat) (s : Compacting α) :
    Option (Compacting α) :=
  match s.cursor with
  | .scan i =>
    if i < s.bound then
      if drop (s.buf i) then some { s with cursor := .shift i i }
      else some { s with cursor := .scan (i + 1), buf := Function.update s.buf i (keep (s.buf i)) }
    else none
  | .shift i j =>
    if j + 1 < s.bound + extra then
      some { s with cursor := .shift i (j + 1), buf := Function.update s.buf j (move (s.buf j) (s.buf (j + 1))) }
    else some { s with cursor := .scan i, bound := s.bound - 1 }

/-- The indices stay within the bound, which never exceeds `n`; it is lowered only where an entry is left. -/
def Compacting.Within (n : Nat) (s : Compacting α) : Prop :=
  s.bound ≤ n ∧
  match s.cursor with
  | .scan i => i ≤ s.bound
  | .shift i j => i ≤ j ∧ i < s.bound ∧ j ≤ n

variable {move : α → α → α} {drop : α → Bool} {keep : α → α} {extra n : Nat} {s t : Compacting α}

theorem Compacting.Within.pass (hextra : extra ≤ 1) (hs : s.Within n)
    (h : compactPass move drop keep extra s = some t) : t.Within n := by
  obtain ⟨cursor, bound, buf⟩ := s
  cases cursor with
  | scan i =>
    obtain ⟨hn, hi⟩ := hs
    simp only [compactPass] at h hn hi
    split at h
    · split at h
      all_goals
        cases h
        refine ⟨hn, ?_⟩
        simp only
        omega
    · cases h
  | shift i j =>
    obtain ⟨hn, hij, hi, hj⟩ := hs
    simp only [compactPass] at h hn hij hi hj
    split at h
    all_goals
      cases h
      refine ⟨?_, ?_⟩
      all_goals
        simp only
        omega

/-- The inner loop. -/
theorem shift_visits (i j k : Nat) (buf : Nat → α) (hk : j + 1 + k = n + extra) :
    Visits (compactPass move drop keep extra) ⟨.shift i j, n, buf⟩ ⟨.scan i, n - 1, shiftLeft move j k buf⟩ := by
  induction k generalizing j buf with
  | zero => exact .single (if_neg (by simp only; omega))
  | succ k ih => exact .head (if_pos (by simp only; omega)) (ih (j + 1) _ (by omega))

/-- The nested loops end, in what `compact` computes. -/
theorem compact_ends (move : α → α → α) (drop : α → Bool) (keep : α → α) (extra i k : Nat) (buf : Nat → α) :
    let r := compact move drop keep extra i k buf
    Ends (compactPass move drop keep extra) ⟨.scan i, i + k, buf⟩ ⟨.scan r.1, r.1, r.2⟩ := by
  induction k generalizing i buf with
  | zero => exact .done (if_neg (by simp))
  | succ k ih =>
    have htest : i < i + (k + 1) := by omega
    simp only [compact]
    by_cases hd : drop (buf i) = true
    · rw [if_pos hd]
      have hpass : compactPass move drop keep extra ⟨.scan i, i + (k + 1), buf⟩ = some ⟨.shift i i, i + (k + 1), buf⟩ := by
        simp only [compactPass]
        rw [if_pos htest, if_pos hd]
      exact (Ends.of_visits (shift_visits i i (k + extra) buf (by omega)) (ih i _)).next hpass
    · rw [if_neg hd]
      have hpass : compactPass move drop keep extra ⟨.scan i, i + (k + 1), buf⟩ =
          some ⟨.scan (i + 1), i + (k + 1), Function.update buf i (keep (buf i))⟩ := by
        simp only [compactPass]
        rw [if_pos htest, if_neg hd]
      have hrest := ih (i + 1) (Function.update buf i (keep (buf i)))
      rw [show i + 1 + k = i + (k + 1) by omega] at hrest
      exact hrest.next hpass

end CompactLoop
