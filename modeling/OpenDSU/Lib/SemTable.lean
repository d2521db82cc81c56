import Mathlib.Logic.Function.Basic

/-! Named semaphores: a table from names to objects, and the value of each object.

Removing a name leaves the object to those who opened it. The objects are numbered from 1; 0 is what a
failed open returns. -/

/-- `allocated` counts the objects made so far. -/
structure SemTable (ν : Type) where
  names : ν → Option Nat
  value : Nat → Nat
  allocated : Nat

namespace SemTable
variable {ν : Type}

section Names
variable [DecidableEq ν]

def unlink (t : SemTable ν) (n : ν) : SemTable ν := { t with names := Function.update t.names n none }

/-- A new object of value 1 under the name. -/
def create (t : SemTable ν) (n : ν) : Nat × SemTable ν :=
  (t.allocated + 1,
    { names := Function.update t.names n (some (t.allocated + 1))
      value := Function.update t.value (t.allocated + 1) 1
      allocated := t.allocated + 1 })

/-- `O_CREAT | O_EXCL`: fails where the name exists. -/
def openExcl (t : SemTable ν) (n : ν) : Nat × SemTable ν :=
  match t.names n with
  | some _ => (0, t)
  | none => t.create n

/-- `O_CREAT`: the object that has the name, a new one otherwise. -/
def openCreate (t : SemTable ν) (n : ν) : Nat × SemTable ν :=
  match t.names n with
  | some o => (o, t)
  | none => t.create n

variable (t : SemTable ν) (n : ν)

theorem openExcl_unlink : (t.unlink n).openExcl n = (t.unlink n).create n := by
  simp [openExcl, unlink]

/-- A name is opened to one object again and again. -/
theorem openCreate_openCreate : ((t.openCreate n).2.openCreate n).1 = (t.openCreate n).1 := by
  cases h : t.names n with
  | none => simp [openCreate, h, create]
  | some o => simp [openCreate, h]

end Names

section Values

def setValue (t : SemTable ν) (o v : Nat) : SemTable ν := { t with value := Function.update t.value o v }

/-- Take the semaphore if its value allows. -/
def tryWait (t : SemTable ν) (o : Nat) : Option (SemTable ν) :=
  if 0 < t.value o then some (t.setValue o (t.value o - 1)) else none

def post (t : SemTable ν) (o : Nat) : SemTable ν := t.setValue o (t.value o + 1)

variable (t : SemTable ν)

@[simp] theorem setValue_value (o v o' : Nat) :
    (t.setValue o v).value o' = if o' = o then v else t.value o' := by
  simp [setValue, Function.update_apply]

@[simp] theorem post_value (o o' : Nat) :
    (t.post o).value o' = if o' = o then t.value o + 1 else t.value o' := by
  simp [post]

variable {t}

theorem tryWait_eq_some {t' : SemTable ν} {o : Nat} :
    t.tryWait o = some t' ↔ 0 < t.value o ∧ t' = t.setValue o (t.value o - 1) := by
  unfold tryWait
  split
  · rename_i h
    simp [h, eq_comm]
  · rename_i h
    simp [h]

end Values

end SemTable
