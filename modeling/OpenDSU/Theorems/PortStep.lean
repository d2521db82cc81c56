import OpenDSU.Port
import OpenDSU.Lib.Places

/-! What each step of a port does, read off `PortState.step` once. -/

namespace OpenDSU

namespace PortState
variable {s t : PortState}

/-! ### Inversion -/

theorem claimName_inv {pid : Nat} {pgid : Int} (h : s.step (.claimName pid pgid) = some t) :
    s.nameHeld = false ∧
      t = { s with binders := s.binders ++ [{ pid := pid, pgid := pgid, phase := .named }] } := by
  simp only [step] at h
  cases hn : s.nameHeld
  · simp only [hn, Bool.false_eq_true, ↓reduceIte, Option.some.injEq] at h
    exact ⟨rfl, h.symm⟩
  · simp [hn] at h

theorem request_inv {pid : Nat} {pgid : Int} (h : s.step (.request pid pgid) = some t) :
    s.nameHeld = true ∧
      t = { s with binders := s.binders ++ [{ pid := pid, pgid := pgid, phase := .asking }] } := by
  simp only [step] at h
  cases hn : s.nameHeld
  · simp [hn] at h
  · simp only [hn, ↓reduceIte, Option.some.injEq] at h
    exact ⟨rfl, h.symm⟩

theorem bindFirst_inv {k : Nat} (h : s.step (.bindFirst k) = some t) :
    ∃ b, s.binders[k]? = some b ∧ b.phase = .named ∧ t = s.enterFirst k b true := by
  simp only [step] at h
  split at h
  · rename_i b hb
    split at h
    · rename_i hp
      exact ⟨b, hb, hp, (Option.some.inj h).symm⟩
    · cases h
  · cases h

theorem serve_inv {i k : Nat} (h : s.step (.serve i k) = some t) :
    ∃ r b, s.recs[i]? = some r ∧ s.binders[k]? = some b ∧ b.phase = .asking ∧
      t = { s with
        status := (answerSection s.status r.sock).1
        recs := s.recs.set i { r with sock := (answerSection s.status r.sock).2 }
        binders := if r.comOpen then s.binders.set k { b with phase := .answered } else s.binders } := by
  simp only [step] at h
  split at h
  · rename_i r b hr hb
    split at h
    · rename_i hp
      exact ⟨r, b, hr, hb, hp, (Option.some.inj h).symm⟩
    · cases h
  · cases h

theorem bindAnswered_inv {k : Nat} (h : s.step (.bindAnswered k) = some t) :
    ∃ b, s.binders[k]? = some b ∧ b.phase = .answered ∧
      ((0 < s.port ∧ t = s.enterInherit k b) ∨ (s.port = 0 ∧ t = s.enterFirst k b true)) := by
  simp only [step] at h
  split at h
  · rename_i b hb
    split at h
    · rename_i hp
      split at h
      · rename_i hport
        exact ⟨b, hb, hp, Or.inl ⟨hport, (Option.some.inj h).symm⟩⟩
      · rename_i hport
        exact ⟨b, hb, hp, Or.inr ⟨by omega, (Option.some.inj h).symm⟩⟩
    · cases h
  · cases h

theorem bindFallback_inv {k : Nat} (h : s.step (.bindFallback k) = some t) :
    ∃ b, s.binders[k]? = some b ∧ b.phase = .asking ∧ t = s.enterFirst k b false := by
  simp only [step] at h
  split at h
  · rename_i b hb
    split at h
    · rename_i hp
      exact ⟨b, hb, hp, (Option.some.inj h).symm⟩
    · cases h
  · cases h

theorem fork_inv {pid child : Nat} (h : s.step (.fork pid child) = some t) :
    t = { s with recs := s.recs ++ s.copies pid child } := by
  simp only [step] at h
  split at h
  · cases h
  · exact (Option.some.inj h).symm

theorem monitor_inv {i : Nat} (h : s.step (.monitor i) = some t) :
    ∃ r, s.recs[i]? = some r ∧
      t = { s with
        status := (monitorSection r.pgid s.status r.sock).1
        recs := s.recs.set i { r with
          sock := (monitorSection r.pgid s.status r.sock).2
          comOpen := r.comOpen && !r.sock.quits s.status } } := by
  simp only [step] at h
  split at h
  · rename_i r hr
    exact ⟨r, hr, (Option.some.inj h).symm⟩
  · cases h

theorem setLocked_inv {i : Nat} {locked : Bool} (h : s.step (.setLocked i locked) = some t) :
    ∃ r, s.recs[i]? = some r ∧
      t = { s with recs := s.recs.set i { r with sock := { r.sock with locked := locked } } } := by
  simp only [step] at h
  split at h
  · rename_i r hr
    exact ⟨r, hr, (Option.some.inj h).symm⟩
  · cases h

theorem close_inv {i : Nat} (h : s.step (.close i) = some t) :
    ∃ r, s.recs[i]? = some r ∧
      t = { s with recs := s.recs.eraseIdx i, leaked := s.leaked + if r.comOpen then 1 else 0 } := by
  simp only [step] at h
  split at h
  · rename_i r hr
    exact ⟨r, hr, (Option.some.inj h).symm⟩
  · cases h

theorem closeCom_inv {i : Nat} (h : s.step (.closeCom i) = some t) :
    ∃ r, s.recs[i]? = some r ∧ r.sock.monitoring = true ∧
      t = { s with
        recs := s.recs.set i { r with sock := { r.sock with monitoring := false }, comOpen := false } } := by
  simp only [step] at h
  split at h
  · rename_i r hr
    split at h
    · rename_i hm
      exact ⟨r, hr, hm, (Option.some.inj h).symm⟩
    · cases h
  · cases h

/-- A copy differs from the record it is a copy of in its process only. -/
theorem mem_copies {pid child : Nat} {r : Rec} :
    r ∈ s.copies pid child ↔ ∃ r₀ ∈ s.recs, r₀.pid = pid ∧ r = { r₀ with pid := child } := by
  simp only [copies, List.mem_map, List.mem_filter, beq_iff_eq, and_assoc]
  exact ⟨fun ⟨r₀, h, hp, he⟩ => ⟨r₀, h, hp, he.symm⟩, fun ⟨r₀, h, hp, he⟩ => ⟨r₀, h, hp, he.symm⟩⟩

end PortState
end OpenDSU
