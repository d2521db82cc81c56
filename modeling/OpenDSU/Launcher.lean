import Mathlib.Algebra.Group.Nat.Defs
import Mathlib.Data.Int.DivMod
import Mathlib.Data.List.Basic

/-! `exec.c`: the launcher puts the library and its arguments into one string, which it hands to `system`. -/

namespace OpenDSU

/-- A string of C without its terminating zero. -/
structure CString where
  bytes : List UInt8
  nonzero : 0 ∉ bytes
deriving DecidableEq

def CString.strlen (s : CString) : Nat := s.bytes.length

/-- The bytes of ASCII text. -/
def ascii (s : String) : List UInt8 := s.toList.map fun c => c.toNat.toUInt8

/-- `LD_PRELOAD_LIB`. -/
def ldPreloadLib : CString where
  bytes := ascii "LD_PRELOAD=$LD_PRELOAD:/usr/local/lib/libopenDSU.so"
  nonzero := by decide

/-- The string of one blank. -/
def blankString : CString where
  bytes := ascii " "
  nonzero := by decide

/-- An `int` after the addition of a `size_t`. -/
def addSize (a : Int) (n : Nat) : Int := (a + n).bmod (2 ^ 32)

/-- The first loop of `main`, and what follows it: `size`. `argv[0]` is the launcher itself. -/
def commandSize (argv : List CString) : Int :=
  let size := (argv.drop 1).foldl (fun size arg => addSize size (arg.strlen + 1)) 0
  addSize (addSize size (ldPreloadLib.strlen + 1)) 1

/-- The bytes of an array, `none` before they are written, and the indices that were written. -/
structure Buffer where
  byte : Int → Option UInt8
  written : List Int

def Buffer.fresh : Buffer where
  byte _ := none
  written := []

def Buffer.write (b : Buffer) (i : Int) (c : UInt8) : Buffer where
  byte j := if j = i then some c else b.byte j
  written := b.written ++ [i]

/-- `strcpy` to index `i`, with the terminating zero. -/
def strcpy : List UInt8 → Int → Buffer → Buffer
  | [], i, b => b.write i 0
  | c :: cs, i, b => strcpy cs (i + 1) (b.write i c)

/-- `command` and `idx`. -/
structure Command where
  buffer : Buffer
  idx : Int

/-- `strcpy` to `idx`, and `idx` moved behind the string. -/
def Command.add (c : Command) (s : CString) : Command where
  buffer := strcpy s.bytes c.idx c.buffer
  idx := addSize c.idx s.strlen

/-- `main` from the declaration of `command` on to the call of `system`. -/
def buildCommand (argv : List CString) : Command :=
  let start := (Command.add { buffer := .fresh, idx := 0 } ldPreloadLib).add blankString
  (argv.drop 1).foldl (fun c arg => (c.add arg).add blankString) start

/-- What the command should be: the library, and each argument, with a blank behind each. -/
def commandBytes (argv : List CString) : List UInt8 :=
  ldPreloadLib.bytes ++ ascii " " ++ (argv.drop 1).flatMap fun arg => arg.bytes ++ ascii " "

end OpenDSU
