import OpenDSU.Launcher

/-! The two loops of the launcher agree: what is written is what was measured. -/

namespace OpenDSU

variable {b : Buffer} {c : Command} {content : List UInt8} {argv : List CString}

/-! ### `strcpy` -/

theorem strcpy_byte (s : List UInt8) (i : Int) (b : Buffer) (k : Int) : (strcpy s i b).byte k =
    if i ≤ k ∧ k < i + s.length then s[(k - i).toNat]? else if k = i + s.length then some 0 else b.byte k := by
  induction s generalizing i b with
  | nil =>
    rw [strcpy, Buffer.write, if_neg (by simp)]
    simp
  | cons x s ih =>
    rw [strcpy, ih, List.length_cons]
    push_cast
    by_cases hk : k = i
    · subst hk
      rw [if_neg (by omega), if_neg (by omega), if_pos (by omega)]
      simp [Buffer.write]
    by_cases hin : i + 1 ≤ k ∧ k < i + 1 + s.length
    · rw [if_pos hin, if_pos (by omega), show (k - i).toNat = (k - (i + 1)).toNat + 1 by omega,
        List.getElem?_cons_succ]
    rw [if_neg hin]
    by_cases hend : k = i + 1 + s.length
    · rw [if_pos hend, if_neg (by omega), if_pos (by omega)]
    · rw [if_neg hend, if_neg (by omega), if_neg (by omega), Buffer.write]
      exact if_neg hk

theorem strcpy_written (s : List UInt8) (i : Int) (b : Buffer) {k : Int} :
    k ∈ (strcpy s i b).written ↔ k ∈ b.written ∨ i ≤ k ∧ k ≤ i + s.length := by
  induction s generalizing i b with
  | nil =>
    have hone : k = i ↔ i ≤ k ∧ k ≤ i + ([] : List UInt8).length := by
      rw [List.length_nil]
      omega
    simp only [strcpy, Buffer.write, List.mem_append, List.mem_singleton, hone]
  | cons x s ih =>
    have hnext : k = i ∨ i + 1 ≤ k ∧ k ≤ i + 1 + s.length ↔ i ≤ k ∧ k ≤ i + (x :: s).length := by
      rw [List.length_cons]
      omega
    simp only [strcpy, ih, Buffer.write, List.mem_append, List.mem_singleton, or_assoc, hnext]

/-! ### The copying loop -/

/-- The buffer holds the content so far, with one zero behind it, and nothing was written behind that. -/
structure Command.Holds (content : List UInt8) (c : Command) : Prop where
  idx : c.idx = content.length
  bytes : ∀ k < content.length, c.buffer.byte (k : Nat) = content[k]?
  zero : c.buffer.byte content.length = some 0
  written : ∀ i ∈ c.buffer.written, 0 ≤ i ∧ i ≤ content.length

theorem addSize_of_lt {a n : Nat} (h : a + n < 2 ^ 31) : addSize a n = (a + n : Nat) := by
  unfold addSize
  rw [Int.bmod_def]
  omega

theorem Command.Holds.add (h : c.Holds content) (s : CString) (hfits : content.length + s.strlen < 2 ^ 31) :
    (c.add s).Holds (content ++ s.bytes) := by
  have hidx : (c.add s).idx = (content ++ s.bytes).length := by
    rw [List.length_append]
    exact (congrArg (addSize · s.strlen) h.idx).trans (addSize_of_lt hfits)
  refine ⟨hidx, fun k hk => ?_, ?_, fun i hi => ?_⟩
  · change (strcpy s.bytes c.idx c.buffer).byte k = _
    rw [strcpy_byte, h.idx]
    rw [List.length_append] at hk
    by_cases hold : k < content.length
    · rw [if_neg (by omega), if_neg (by omega), h.bytes k hold, List.getElem?_append_left hold]
    · rw [if_pos (by omega), List.getElem?_append_right (by omega)]
      congr 1
      omega
  · change (strcpy s.bytes c.idx c.buffer).byte _ = _
    rw [strcpy_byte, h.idx, List.length_append]
    push_cast
    rw [if_neg (by omega), if_pos rfl]
  · have hi' := (strcpy_written s.bytes c.idx c.buffer).mp hi
    rw [h.idx] at hi'
    rw [List.length_append]
    push_cast
    rcases hi' with hi' | hi'
    · have := h.written i hi'
      omega
    · omega

/-- `main` starts at the front of the array, which holds nothing yet. -/
theorem Command.holds_lib :
    (Command.add { buffer := .fresh, idx := 0 } ldPreloadLib).Holds ldPreloadLib.bytes := by
  refine ⟨by decide, fun k hk => ?_, ?_, fun i hi => ?_⟩
  · change (strcpy ldPreloadLib.bytes 0 .fresh).byte k = _
    rw [strcpy_byte, if_pos (by omega), Int.sub_zero, Int.toNat_natCast]
  · change (strcpy ldPreloadLib.bytes 0 .fresh).byte _ = _
    rw [strcpy_byte, if_neg (by omega), if_pos (by omega)]
  · rcases (strcpy_written ldPreloadLib.bytes 0 .fresh).mp hi with hi' | hi'
    · cases hi'
    · omega

/-- One pass of the loop: an argument and the blank behind it. -/
theorem Command.Holds.arg (h : c.Holds content) (arg : CString)
    (hfits : content.length + (arg.bytes ++ ascii " ").length < 2 ^ 31) :
    ((c.add arg).add blankString).Holds (content ++ (arg.bytes ++ ascii " ")) := by
  rw [List.length_append] at hfits
  rw [← List.append_assoc]
  have hblank : (ascii " ").length = blankString.strlen := rfl
  refine (h.add arg ?_).add blankString ?_
  · unfold CString.strlen
    omega
  · rw [List.length_append]
    omega

theorem Command.Holds.args (h : c.Holds content) (args : List CString)
    (hfits : content.length + (args.flatMap fun arg => arg.bytes ++ ascii " ").length < 2 ^ 31) :
    (args.foldl (fun c arg => (c.add arg).add blankString) c).Holds
      (content ++ args.flatMap fun arg => arg.bytes ++ ascii " ") := by
  induction args generalizing c content with
  | nil => simpa using h
  | cons arg args ih =>
    rw [List.flatMap_cons, List.length_append] at hfits
    rw [List.foldl_cons, List.flatMap_cons, ← List.append_assoc]
    refine ih (h.arg arg (by omega)) ?_
    rw [List.length_append]
    omega

theorem buildCommand_holds (h : (commandBytes argv).length < 2 ^ 31) :
    (buildCommand argv).Holds (commandBytes argv) := by
  unfold commandBytes at h ⊢
  rw [List.length_append] at h
  exact (Command.holds_lib.add blankString (by decide)).args _ h

/-! ### The measuring loop -/

theorem foldl_addSize (args : List CString) {n : Nat}
    (hfits : n + (args.flatMap fun arg => arg.bytes ++ ascii " ").length < 2 ^ 31) :
    args.foldl (fun size arg => addSize size (arg.strlen + 1)) (n : Int) =
      (n + (args.flatMap fun arg => arg.bytes ++ ascii " ").length : Nat) := by
  induction args generalizing n with
  | nil => rfl
  | cons arg args ih =>
    have hblank : (ascii " ").length = 1 := rfl
    rw [List.flatMap_cons, List.length_append, List.length_append, hblank] at hfits
    rw [List.foldl_cons, List.flatMap_cons, List.length_append, List.length_append, hblank, addSize_of_lt,
      CString.strlen, ih]
    · congr 1
      omega
    · omega
    · unfold CString.strlen
      omega

theorem commandSize_eq (h : (commandBytes argv).length + 1 < 2 ^ 31) :
    commandSize argv = (commandBytes argv).length + 1 := by
  have hblank : (ascii " ").length = 1 := rfl
  unfold commandBytes at h ⊢
  rw [List.length_append, List.length_append, hblank] at h ⊢
  have hloop := foldl_addSize (argv.drop 1) (show 0 + _ < 2 ^ 31 by omega)
  rw [Nat.zero_add] at hloop
  change addSize (addSize (List.foldl _ ((0 : Nat) : Int) _) _) 1 = _
  rw [hloop, addSize_of_lt, addSize_of_lt]
  · unfold CString.strlen
    push_cast
    omega
  · unfold CString.strlen
    omega
  · unfold CString.strlen
    omega

theorem commandBytes_nonzero (argv : List CString) : 0 ∉ commandBytes argv := by
  intro h
  have hblank : 0 ∉ ascii " " := by decide
  rcases List.mem_append.mp h with h | h
  · rcases List.mem_append.mp h with h | h
    · exact ldPreloadLib.nonzero h
    · exact hblank h
  · obtain ⟨arg, -, harg⟩ := List.mem_flatMap.mp h
    rcases List.mem_append.mp harg with h | h
    · exact arg.nonzero h
    · exact hblank h

/-! ### The two loops -/

/-- Nothing is written outside `command[size]`, which the command fills to the last byte. -/
theorem buildCommand_fills (argv : List CString) (h : (commandBytes argv).length + 1 < 2 ^ 31) :
    let command := (buildCommand argv).buffer
    let idx := (buildCommand argv).idx
    (∀ i ∈ command.written, 0 ≤ i ∧ i < commandSize argv) ∧ idx + 1 = commandSize argv ∧
      (∀ k < (commandBytes argv).length, command.byte (k : Nat) = (commandBytes argv)[k]?) ∧
      idx = (commandBytes argv).length ∧ command.byte idx = some 0 ∧
      ∀ k, 0 ≤ k → k < idx → command.byte k ≠ some 0 := by
  intro command idx
  have hholds := buildCommand_holds (Nat.lt_of_succ_lt h)
  have hsize := commandSize_eq h
  have hidx : idx = (commandBytes argv).length := hholds.idx
  refine ⟨fun i hi => ?_, by omega, hholds.bytes, hidx, ?_, fun k hk hlt hzero => ?_⟩
  · have := hholds.written i hi
    omega
  · rw [hidx]
    exact hholds.zero
  · obtain ⟨n, rfl⟩ := Int.eq_ofNat_of_zero_le hk
    have hbyte := hholds.bytes n (by omega)
    exact commandBytes_nonzero argv (List.mem_of_getElem? (hbyte.symm.trans hzero))

/-- `./openDSU ./server` and an argument of two words. -/
def serverArgv : List CString :=
  [⟨ascii "./openDSU", by decide⟩, ⟨ascii "./server", by decide⟩, ⟨ascii "port 8080", by decide⟩]

theorem buildCommand_fills_server :
    (commandBytes serverArgv).length + 1 < 2 ^ 31 ∧ (buildCommand serverArgv).idx + 1 = commandSize serverArgv :=
  ⟨by decide, (buildCommand_fills serverArgv (by decide)).2.1⟩

end OpenDSU
