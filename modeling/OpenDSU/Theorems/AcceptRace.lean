import OpenDSU.Accept

/-! When a process that has lost the race for a connection of another version returns.

`dsu_monitor_init` passes the address of its variable to `F_SETFL`, not its value. -/

namespace OpenDSU

/-- A word with some of its bits set anew has them all as in `f ||| b` exactly where the new bits are those. -/
theorem masked_eq_or_iff {n : Nat} {mask b f a : BitVec n} (hb : b &&& mask = b) :
    (a &&& mask) ||| (f &&& ~~~mask) = f ||| b ↔ a &&& mask = (f ||| b) &&& mask := by
  have hbit : ∀ i (hi : i < n), (b[i] && mask[i]) = b[i] := fun i hi => by rw [← BitVec.getElem_and, hb]
  constructor <;> intro h <;> ext i hi <;> have hi' := congrArg (fun x : BitVec n => x[i]) h <;>
    simp only [BitVec.getElem_and, BitVec.getElem_or, BitVec.getElem_not] at hi' ⊢ <;> have := hbit i hi <;>
    revert this hi' <;> cases a[i] <;> cases mask[i] <;> cases f[i] <;> cases b[i] <;> decide

theorem or_and_self {n : Nat} (f b : BitVec n) : (f ||| b) &&& b = b := by
  ext i hi
  simp only [BitVec.getElem_and, BitVec.getElem_or]
  cases f[i] <;> cases b[i] <;> rfl

theorem eq_or_iff {n : Nat} {f b : BitVec n} : f = f ||| b ↔ f &&& b = b := by
  refine ⟨fun h => ?_, fun h => ?_⟩
  · rw [h]
    exact or_and_self f b
  · ext i hi
    have hi' := congrArg (fun x : BitVec n => x[i]) h
    simp only [BitVec.getElem_and, BitVec.getElem_or] at hi' ⊢
    revert hi'
    cases f[i] <;> cases b[i] <;> decide

theorem oNonblock_settable : oNonblock &&& settable = oNonblock := by decide

theorem or_oNonblock_ne_zero (f : StatusFlags) : (f ||| oNonblock) &&& oNonblock ≠ 0 := by
  rw [or_and_self]
  decide

/-! ### The race -/

namespace Race

/-- Nobody waits in `dsu_accept4`, and one connection goes to one process. -/
structure Orderly (s : Race) : Prop where
  returns : ∀ i, s.process i ≠ .waiting
  one : s.arrived ≤ 1 → ∀ i j, s.process i = .returned true → s.process j = .returned true → i = j

/-- The invariant. Every connection that a process has, has arrived and is pending no more. -/
structure Fair (s : Race) : Prop where
  nonblock : s.flags &&& oNonblock ≠ 0
  returns : ∀ i, s.process i ≠ .waiting
  one : ∀ i, s.process i = .returned true → 1 + s.pending ≤ s.arrived
  two : ∀ i j, i ≠ j → s.process i = .returned true → s.process j = .returned true → 2 + s.pending ≤ s.arrived
  none : s.pending ≤ s.arrived

variable {s t : Race} {i : Nat}

theorem Fair.orderly (h : s.Fair) : s.Orderly where
  returns := h.returns
  one harrived i j hi hj := by
    by_contra hne
    have := h.two i j hne hi hj
    omega

theorem Fair.set (h : s.Fair) {a : Acceptor} (hwait : a ≠ .waiting) (ha : a ≠ .returned true) : (s.set i a).Fair := by
  have hold : ∀ j, (s.set i a).process j = .returned true → s.process j = .returned true := fun j hj => by
    by_cases hji : j = i
    · simp [Race.set, hji, ha] at hj
    · simpa [Race.set, hji] using hj
  refine ⟨h.nonblock, fun j => ?_, fun j hj => h.one j (hold j hj),
    fun j k hjk hj hk => h.two j k hjk (hold j hj) (hold k hk),
    h.none⟩
  by_cases hji : j = i
  · simpa [Race.set, hji] using hwait
  · simpa [Race.set, hji] using h.returns j

theorem Fair.take (h : s.Fair) (hp : 0 < s.pending) : (s.take i).Fair := by
  have hold : ∀ j, j ≠ i → (s.take i).process j = s.process j := fun j hj => by simp [Race.take, Race.set, hj]
  have hnew : (s.take i).process i = .returned true := by simp [Race.take, Race.set]
  have hnone := h.none
  have hpending : (s.take i).pending = s.pending - 1 := rfl
  have harrived : (s.take i).arrived = s.arrived := rfl
  refine ⟨h.nonblock, fun j => ?_, fun j _ => by omega, fun j k hjk hj hk => ?_, by omega⟩
  · by_cases hji : j = i
    · rw [hji, hnew]
      simp
    · rw [hold j hji]
      exact h.returns j
  · by_cases hji : j = i
    · have hk' := h.one k (hold k (fun hki => hjk (hji.trans hki.symm)) ▸ hk)
      omega
    · have hj' := h.one j (hold j hji ▸ hj)
      omega

theorem Fair.step (h : s.Fair) {a : RaceAct} (hs : s.step a = some t) : t.Fair := by
  cases a with
  | connect =>
    cases hs
    have hnone := h.none
    refine ⟨h.nonblock, h.returns, fun i hi => ?_, fun i j hij hi hj => ?_, ?_⟩
    · have := h.one i hi
      simp only
      omega
    · have := h.two i j hij hi hj
      simp only
      omega
    · simp only
      omega
  | report i =>
    obtain ⟨-, hs⟩ := Option.ite_none_right_eq_some.mp hs
    cases hs
    exact h.set (by simp) (by simp)
  | accept4 i =>
    obtain ⟨-, hs⟩ := Option.ite_none_right_eq_some.mp hs
    split at hs
    · rename_i hp
      cases hs
      exact h.take hp
    · rw [if_neg h.nonblock] at hs
      cases hs
      exact h.set (by simp) (by simp)
  | wake i =>
    obtain ⟨⟨-, hp⟩, hs⟩ := Option.ite_none_right_eq_some.mp hs
    cases hs
    exact h.take hp
  | leave i =>
    simp only [Race.step] at hs
    split at hs
    · cases hs
      exact h.set (by simp) (by simp)
    · cases hs

theorem fair_start {flags : StatusFlags} (h : flags &&& oNonblock ≠ 0) : (start flags).Fair :=
  ⟨h, by simp [start], by simp [start], by simp [start], Nat.le_refl _⟩

/-- Two processes see one connection, and the second waits. -/
theorem waits_of_blocking {flags : StatusFlags} (h : flags &&& oNonblock = 0) :
    ∃ t, (raceMachine flags).run (.start flags) [.connect, .report 0, .report 1, .accept4 0, .accept4 1] = some t ∧
      t.process 1 = .waiting := by
  refine ⟨((((({ start flags with arrived := 1 } : Race).set 0 .reported).set 1 .reported).set 0 (.returned true)).set 1
    .waiting), ?_, rfl⟩
  simp [Machine.run, raceMachine, Race.step, start, Race.set, Race.take, h]

/-- In every interleaving of any number of processes each `dsu_accept4` returns if and only if the open file is
    non-blocking. -/
theorem orderly_iff (flags : StatusFlags) :
    (∀ s, (raceMachine flags).Reachable s → s.Orderly) ↔ flags &&& oNonblock ≠ 0 := by
  refine ⟨fun h hblocking => ?_, fun h s hr => ?_⟩
  · obtain ⟨t, hrun, hwaits⟩ := waits_of_blocking hblocking
    exact (h t (Machine.Reachable.of_run _ (.init rfl) hrun)).returns 1 hwaits
  · refine Fair.orderly (hr.invariant (fun s hs => ?_) fun _ _ _ hf hs => hf.step hs)
    rw [hs]
    exact fair_start h

end Race

/-! ### The flags -/

section
variable {bound listened : Bool} {granted : StatusFlags → StatusFlags → Bool} {address : BitVec 64} {file : StatusFlags}

/-- A `dsu_monitor_init` that returns 0 leaves the flags of the file as they were but for `O_NONBLOCK`, which is set;
    and the processes that share the file never wait in `dsu_accept4`. -/
structure NeverBlocks (bound listened : Bool) (granted : StatusFlags → StatusFlags → Bool) (address : BitVec 64)
    (file : StatusFlags) : Prop where
  flags : (dsuMonitorInitFlags bound listened granted address file).1 = 0 →
    (dsuMonitorInitFlags bound listened granted address file).2 = file ||| oNonblock
  accepts : (dsuMonitorInitFlags bound listened granted address file).1 = 0 →
    ∀ s, (raceMachine (dsuMonitorInitFlags bound listened granted address file).2).Reachable s → s.Orderly

/-- The address, read as flags, happens to say what the variable says; or the kernel refuses it, and the flag was set
    before. -/
def AddressServes (granted : StatusFlags → StatusFlags → Bool) (address : BitVec 64) (file : StatusFlags) : Prop :=
  if granted file (address.truncate 32) then address.truncate 32 &&& settable = (file ||| oNonblock) &&& settable
  else file &&& oNonblock = oNonblock

instance : Decidable (AddressServes granted address file) := by
  unfold AddressServes
  infer_instance

theorem setfl_eq_iff : setfl granted file address = file ||| oNonblock ↔ AddressServes granted address file := by
  unfold setfl AddressServes
  simp only
  split
  · exact masked_eq_or_iff oNonblock_settable
  · exact eq_or_iff

theorem dsuMonitorInitFlags_of_listening (h : (bound && listened) = true) :
    dsuMonitorInitFlags bound listened granted address file = (0, setfl granted file address) := if_pos h

theorem dsuMonitorInitFlags_not_zero (h : (bound && listened) ≠ true) :
    (dsuMonitorInitFlags bound listened granted address file).1 ≠ 0 := by
  unfold dsuMonitorInitFlags
  rw [if_neg h]
  simp

/-- Accepting an internal connection never blocks exactly where the address serves as the flags. -/
theorem neverBlocks_iff : NeverBlocks bound listened granted address file ↔
    ((bound && listened) = true → AddressServes granted address file) := by
  by_cases h : (bound && listened) = true
  · have heq : dsuMonitorInitFlags bound listened granted address file = (0, setfl granted file address) :=
      dsuMonitorInitFlags_of_listening h
    refine ⟨fun hn _ => setfl_eq_iff.mp ?_, fun hs => ?_⟩
    · have hflags := hn.flags
      rw [heq] at hflags
      exact hflags rfl
    · have hflags := setfl_eq_iff.mpr (hs h)
      refine ⟨fun _ => ?_, fun _ => ?_⟩
      · rw [heq]
        exact hflags
      · rw [heq]
        refine (Race.orderly_iff _).mpr ?_
        rw [hflags]
        exact or_oNonblock_ne_zero file
  · have hne : (dsuMonitorInitFlags bound listened granted address file).1 ≠ 0 := dsuMonitorInitFlags_not_zero h
    exact ⟨fun _ hpos => absurd hpos h, fun _ => ⟨fun hzero => absurd hzero hne, fun hzero => absurd hzero hne⟩⟩

end

/-- The variable is at an address without the bit of `O_NONBLOCK`: the listening socket stays blocking, and of two
    processes that see one connection the second waits. -/
theorem second_worker_waits : ∃ s,
    dsuMonitorInitFlags true true (fun _ _ => true) 0x7ffc5a3b1044#64 2#32 = (0, 2#32) ∧
    (raceMachine 2#32).run (.start 2#32) [.connect, .report 0, .report 1, .accept4 0, .accept4 1] = some s ∧
    s.process 1 = .waiting ∧ ¬NeverBlocks true true (fun _ _ => true) 0x7ffc5a3b1044#64 2#32 :=
  ⟨_, by decide, rfl, rfl, fun h => absurd (h.flags (by decide)) (by decide)⟩

end OpenDSU
