import OpenDSU.Lib.Shell
import OpenDSU.Theorems.Command

/-! The shell takes the arguments of the launcher apart again, at blanks and signs of its own. -/

namespace OpenDSU

open Shell

/-- The characters of the shell that `system` runs. -/
def shellAlphabet : Alphabet UInt8 where
  cls c :=
    if c ∈ ascii " \t" then .blank
    else if c ∈ ascii "\n" then .newline
    else if c ∈ ascii "|&;<>()" then .operator
    else if c ∈ ascii "'" then .quote
    else if c ∈ ascii "\"" then .dquote
    else if c ∈ ascii "\\" then .escape
    else if c ∈ ascii "$`" then .expand
    else if c ∈ ascii "*?[" then .pattern
    else if c ∈ ascii "#" then .hash
    else if c ∈ ascii "~" then .tilde
    else .literal
  letter c := c ∈ ascii "ABCDEFGHIJKLMNOPQRSTUVWXYZabcdefghijklmnopqrstuvwxyz_"
  digit c := c ∈ ascii "0123456789"
  equals c := c ∈ ascii "="

/-- `LD_PRELOAD_LIB` as the shell reads it: an assignment, with a variable in its value. -/
def ldPreloadWord : Word UInt8 :=
  (ascii "LD_PRELOAD=").map .lit ++ (ascii "$").map .special ++
    (ascii "LD_PRELOAD:/usr/local/lib/libopenDSU.so").map .lit

/-- The string at the front of a buffer. -/
structure Buffer.Text (b : Buffer) (l : List UInt8) : Prop where
  bytes : ∀ k < l.length, b.byte (k : Nat) = l[k]?
  zero : b.byte l.length = some 0
  nonzero : 0 ∉ l

/-- The launcher writes no byte outside of its array, and what it hands to the shell is one simple command: the
assignment and then the arguments. -/
structure RunsExactly (argv : List CString) : Prop where
  inside : ∀ i ∈ (buildCommand argv).buffer.written, 0 ≤ i ∧ i < commandSize argv
  command : ∃ l tokens words, (buildCommand argv).buffer.Text l ∧ shellAlphabet.read l = some tokens ∧
    shellAlphabet.simpleCommand tokens = some ([ldPreloadWord], words) ∧
    words.map Word.text = (argv.drop 1).map fun arg => some arg.bytes

variable {b : Buffer} {c : Command} {content l l' : List UInt8} {argv : List CString}

/-! ### What the shell is given -/

theorem Buffer.Text.length_le (h : b.Text l) (h' : b.Text l') : l.length ≤ l'.length := by
  by_contra hlt
  have hbyte := (h.bytes l'.length (by omega)).symm.trans h'.zero
  exact h.nonzero (List.mem_of_getElem? hbyte)

theorem Buffer.Text.unique (h : b.Text l) (h' : b.Text l') : l = l' := by
  have hlen := Nat.le_antisymm (h.length_le h') (h'.length_le h)
  refine List.ext_getElem? fun k => ?_
  by_cases hk : k < l.length
  · rw [← h.bytes k hk, h'.bytes k (by omega)]
  · rw [List.getElem?_eq_none (by omega), List.getElem?_eq_none (by omega)]

theorem buildCommand_text (h : (commandBytes argv).length < 2 ^ 31) :
    (buildCommand argv).buffer.Text (commandBytes argv) :=
  have hholds := buildCommand_holds h
  ⟨hholds.bytes, hholds.zero, commandBytes_nonzero argv⟩

theorem commandBytes_eq (argv : List CString) :
    commandBytes argv = ldPreloadLib.bytes ++ ascii " " ++ joined 32 ((argv.drop 1).map CString.bytes) := by
  unfold commandBytes joined
  rw [List.flatMap_map]
  rfl

/-- The launcher's own part of the command. -/
theorem run_lib :
    shellAlphabet.run ⟨[], .gap⟩ (ldPreloadLib.bytes ++ ascii " ") = ⟨[.word ldPreloadWord], .gap⟩ := by
  decide +kernel

/-! ### The array is large enough -/

theorem strcpy_keeps (s : List UInt8) (i : Int) (b : Buffer) {k : Int} (h : k ∈ b.written) :
    k ∈ (strcpy s i b).written :=
  (strcpy_written s i b).mpr (.inl h)

theorem Command.add_idx_written (h : (c.add s).idx = c.idx + s.strlen) : (c.add s).idx ∈ (c.add s).buffer.written := by
  refine (strcpy_written s.bytes c.idx c.buffer).mpr (.inr ?_)
  rw [h]
  unfold CString.strlen
  omega

theorem args_keeps (args : List CString) (c : Command) {k : Int} (h : k ∈ c.buffer.written) :
    k ∈ (args.foldl (fun c arg => (c.add arg).add blankString) c).buffer.written := by
  induction args generalizing c with
  | nil => exact h
  | cons arg args ih => exact ih _ (strcpy_keeps _ _ _ (strcpy_keeps _ _ _ h))

/-- The loop writes at the end of every string, so an array that holds all it writes holds the whole command. -/
theorem Command.Holds.fits_of_inside (h : c.Holds content) (hend : c.idx ∈ c.buffer.written) (args : List CString)
    {size : Int} (hsize : size ≤ 2 ^ 31)
    (hin : ∀ i ∈ (args.foldl (fun c arg => (c.add arg).add blankString) c).buffer.written, i < size) :
    (content ++ args.flatMap fun arg => arg.bytes ++ ascii " ").length < size := by
  induction args generalizing c content with
  | nil =>
    have hlt := hin c.idx hend
    rw [h.idx] at hlt
    simpa using hlt
  | cons arg args ih =>
    rw [List.flatMap_cons, ← List.append_assoc]
    -- the zeros behind the argument and behind its blank are inside
    have harg : (content.length + arg.strlen : Nat) < size := by
      refine hin _ (args_keeps args _ (strcpy_keeps _ _ _ ((strcpy_written _ _ _).mpr (.inr ?_))))
      rw [h.idx]
      unfold CString.strlen
      omega
    have hholds := h.add arg (by omega)
    have hlen : (content ++ arg.bytes).length = content.length + arg.strlen := List.length_append
    have hblank : ((content ++ arg.bytes).length + 1 : Nat) < size := by
      refine hin _ (args_keeps args _ ((strcpy_written _ _ _).mpr (.inr ?_)))
      rw [hholds.idx, show blankString.bytes.length = 1 from rfl]
      omega
    have hnext := hholds.add blankString (show _ + 1 < 2 ^ 31 by omega)
    rw [List.append_assoc] at hnext
    refine ih hnext (add_idx_written ?_) hin
    rw [hnext.idx, hholds.idx, ← List.append_assoc, List.length_append]
    rfl

theorem commandSize_lt (argv : List CString) : commandSize argv < 2 ^ 31 := by
  unfold commandSize addSize
  rw [Int.bmod_def]
  omega

theorem fits_of_inside (h : ∀ i ∈ (buildCommand argv).buffer.written, 0 ≤ i ∧ i < commandSize argv) :
    (commandBytes argv).length + 1 < 2 ^ 31 := by
  have hsize := commandSize_lt argv
  have hlib := Command.holds_lib.add blankString (by decide)
  have hlt := hlib.fits_of_inside (Command.add_idx_written rfl) (argv.drop 1) (by omega) fun i hi => (h i hi).2
  have heq : ldPreloadLib.bytes ++ blankString.bytes ++ ((argv.drop 1).flatMap fun arg => arg.bytes ++ ascii " ") =
      commandBytes argv := rfl
  rw [heq] at hlt
  omega

/-! ### What the shell reads -/

theorem ldPreloadWord_assigns : shellAlphabet.assigns ldPreloadWord := by decide

theorem read_commandBytes (argv : List CString) (words : List (Word UInt8)) :
    shellAlphabet.read (commandBytes argv) = some ([.word ldPreloadWord] ++ words.map .word) ↔
      (shellAlphabet.run ⟨[.word ldPreloadWord], .gap⟩ (joined 32 ((argv.drop 1).map CString.bytes))).finish =
        some ([.word ldPreloadWord] ++ words.map .word) := by
  rw [commandBytes_eq, Alphabet.read, run_append, run_lib]

theorem ordinary_iff (argv : List CString) :
    (∃ words : List (Word UInt8), shellAlphabet.read (commandBytes argv) =
        some ([.word ldPreloadWord] ++ words.map .word) ∧
      words.map Word.text = (argv.drop 1).map fun arg => some arg.bytes) ↔
      ∀ arg ∈ argv.drop 1, shellAlphabet.Ordinary arg.bytes := by
  have hiff := read_joined_iff [.word ldPreloadWord] (show shellAlphabet.cls 32 = .blank from by decide)
    (by simp [Token.word?]) ((argv.drop 1).map CString.bytes)
  rw [List.forall_mem_map, List.map_map] at hiff
  simp only [read_commandBytes]
  exact hiff

/-- The words of a command whose arguments are ordinary. -/
def plainWords (argv : List CString) : List (Word UInt8) := (argv.drop 1).map fun arg => arg.bytes.map .lit

theorem read_plainWords (h : ∀ arg ∈ argv.drop 1, shellAlphabet.Ordinary arg.bytes) :
    shellAlphabet.read (commandBytes argv) = some ([.word ldPreloadWord] ++ (plainWords argv).map .word) := by
  have hrun := run_joined [.word ldPreloadWord] (show shellAlphabet.cls 32 = .blank from by decide)
    (List.forall_mem_map.mpr h)
  rw [read_commandBytes, hrun, List.map_map, plainWords, List.map_map]
  rfl

theorem plainWords_text (argv : List CString) :
    (plainWords argv).map Word.text = (argv.drop 1).map fun arg => some arg.bytes := by
  rw [plainWords, List.map_map]
  refine List.map_congr_left fun arg _ => ?_
  simp [Word.text, Piece.char?, Function.comp_def, List.filterMap_map]

theorem forall_head_plainWords (argv : List CString) :
    (∀ w ∈ (plainWords argv).head?, ¬shellAlphabet.assigns w) ↔
      ∀ arg ∈ (argv.drop 1).head?, ¬shellAlphabet.assigns (arg.bytes.map .lit) := by
  rw [plainWords, List.head?_map]
  cases (argv.drop 1).head? <;> simp

/-- The launcher runs exactly the given program when its command fits into an `int`, no argument is empty or has
a character that the shell reads as more than itself, and the first argument is no assignment; and only then. -/
theorem runsExactly_iff (argv : List CString) :
    RunsExactly argv ↔ (commandBytes argv).length + 1 < 2 ^ 31 ∧
      (∀ arg ∈ argv.drop 1, shellAlphabet.Ordinary arg.bytes) ∧
      ∀ arg ∈ (argv.drop 1).head?, ¬shellAlphabet.assigns (arg.bytes.map .lit) := by
  rw [← forall_head_plainWords]
  constructor
  · rintro ⟨hinside, l, tokens, words, htext, hread, hcommand, hwords⟩
    have hfits := fits_of_inside hinside
    obtain rfl := htext.unique (buildCommand_text (Nat.lt_of_succ_lt hfits))
    obtain ⟨rfl, hhead⟩ := (simpleCommand_iff _ ldPreloadWord_assigns).mp hcommand
    have hordinary := (ordinary_iff argv).mp ⟨words, hread, hwords⟩
    have hplain : words = plainWords argv := by
      have htokens := Option.some.inj (hread.symm.trans (read_plainWords hordinary))
      exact List.map_injective_iff.mpr (fun v w h => Token.word.inj h) (List.append_cancel_left htokens)
    rw [← hplain]
    exact ⟨hfits, hordinary, hhead⟩
  · rintro ⟨hfits, hordinary, hhead⟩
    have hholds := buildCommand_holds (Nat.lt_of_succ_lt hfits)
    refine ⟨fun i hi => ?_, commandBytes argv, _, plainWords argv, buildCommand_text (Nat.lt_of_succ_lt hfits),
      read_plainWords hordinary, (simpleCommand_iff _ ldPreloadWord_assigns).mpr ⟨rfl, hhead⟩, plainWords_text argv⟩
    have := hholds.written i hi
    rw [commandSize_eq hfits]
    omega

/-- `openDSU echo 'a b'`: the last argument becomes two. -/
def spacedArgv : List CString :=
  [⟨ascii "openDSU", by decide⟩, ⟨ascii "echo", by decide⟩, ⟨ascii "a b", by decide⟩]

theorem spacedArgv_splits : ¬RunsExactly spacedArgv := by
  rintro ⟨hinside, l, tokens, words, htext, hread, hcommand, hwords⟩
  obtain rfl := htext.unique (buildCommand_text (by decide))
  obtain ⟨rfl, -⟩ := (simpleCommand_iff _ ldPreloadWord_assigns).mp hcommand
  have hordinary := (ordinary_iff spacedArgv).mp ⟨words, hread, hwords⟩
  exact absurd (hordinary ⟨ascii "a b", by decide⟩ (by decide)).2 (by decide)

end OpenDSU
