import Mathlib.Data.List.Nodup
import Mathlib.Data.Set.Card
import Mathlib.Data.List.Perm.Subperm
import Mathlib.Logic.Function.Basic

/-! Singly linked lists in memory, and the loops over them that go along with a pointer to the place where the next
cell is named.

An operation is `none` where it touches a cell that is not live, or where its fuel runs out. -/

/-- What a cell holds, and the address of the next one. The address 0 is the null pointer. -/
structure Cell (α : Type) where
  val : α
  next : Nat

/-- The live cells. -/
abbrev Heap (α : Type) := Nat → Option (Cell α)

/-- A list variable, over the heap that holds its cells. -/
structure Linked (α : Type) where
  head : Nat
  heap : Heap α

/-- Where a pointer to a cell is kept. -/
inductive Place where
  | head
  | next (a : Nat)
deriving DecidableEq, Repr

section Linked
variable {α : Type}

namespace Linked

def read (s : Linked α) : Place → Option Nat
  | .head => some s.head
  | .next a => (s.heap a).map Cell.next

def write (s : Linked α) (p : Nat) : Place → Option (Linked α)
  | .head => some { s with head := p }
  | .next a => (s.heap a).map fun c => { s with heap := Function.update s.heap a (some { c with next := p }) }

/-- The first place from `i` on with the null pointer, or with a pointer to a cell that passes the test. -/
def seek (test : α → Bool) (s : Linked α) : Nat → Place → Option Place
  | 0, _ => none
  | fuel + 1, i =>
    (s.read i).bind fun p =>
      if p = 0 then some i
      else (s.heap p).bind fun c => if test c.val then some i else seek test s fuel (.next p)

/-- Put a new cell, allocated at `a`, at the end. -/
def append (fuel a : Nat) (x : α) (s : Linked α) : Option (Linked α) :=
  let s := { s with heap := Function.update s.heap a (some { val := x, next := 0 }) }
  (s.seek (fun _ => false) fuel .head).bind (s.write a)

/-- Unlink the first cell that passes the test, and free it. -/
def remove (test : α → Bool) (fuel : Nat) (s : Linked α) : Option (Linked α) :=
  (s.seek test fuel .head).bind fun i =>
    (s.read i).bind fun p =>
      if p = 0 then some s
      else (s.heap p).bind fun c =>
        (s.write c.next i).map fun s => { s with heap := Function.update s.heap p none }

/-- The address of the first cell from `p` on that passes the test, else 0. The test may touch memory itself. -/
def search (test : α → Option Bool) (h : Heap α) : Nat → Nat → Option Nat
  | 0, _ => none
  | fuel + 1, p =>
    if p = 0 then some 0
    else (h p).bind fun c => (test c.val).bind fun found => if found then some p else search test h fuel c.next

end Linked

namespace Heap

/-! ### Chains -/

/-- The cells with these addresses and values follow each other from `p` on, and the last one leads to `q`. -/
def Chain (h : Heap α) : Nat → List (Nat × α) → Nat → Prop
  | p, [], q => p = q
  | p, (a, x) :: l, q => p = a ∧ a ≠ 0 ∧ ∃ n, h a = some { val := x, next := n } ∧ Chain h n l q

variable {h h' : Heap α} {p q a : Nat} {x : α} {l l₁ l₂ : List (Nat × α)}

theorem chain_nil : Chain h p [] q ↔ p = q := Iff.rfl

theorem chain_cons : Chain h p ((a, x) :: l) q ↔ p = a ∧ a ≠ 0 ∧ ∃ n, h a = some { val := x, next := n } ∧ Chain h n l q :=
  Iff.rfl

theorem chain_append : Chain h p (l₁ ++ l₂) q ↔ ∃ r, Chain h p l₁ r ∧ Chain h r l₂ q := by
  induction l₁ generalizing p with
  | nil => simp [chain_nil]
  | cons c l₁ ih =>
    obtain ⟨a, x⟩ := c
    simp only [List.cons_append, chain_cons, ih]
    constructor
    · rintro ⟨hp, ha, n, hc, r, h₁, h₂⟩
      exact ⟨r, ⟨hp, ha, n, hc, h₁⟩, h₂⟩
    · rintro ⟨r, ⟨hp, ha, n, hc, h₁⟩, h₂⟩
      exact ⟨hp, ha, n, hc, r, h₁, h₂⟩

/-- A chain is a matter of its own cells. -/
theorem Chain.frame (hl : Chain h p l q) (same : ∀ a ∈ l.map Prod.fst, h' a = h a) : Chain h' p l q := by
  induction l generalizing p with
  | nil => exact hl
  | cons c l ih =>
    obtain ⟨a, x⟩ := c
    obtain ⟨hp, ha, n, hc, hl⟩ := hl
    obtain ⟨hsame, hrest⟩ := List.forall_mem_cons.mp same
    exact ⟨hp, ha, n, hsame.trans hc, ih hl hrest⟩

theorem Chain.live (hl : Chain h p l q) (ha : a ∈ l.map Prod.fst) : a ≠ 0 ∧ (h a).isSome = true := by
  induction l generalizing p with
  | nil => cases ha
  | cons c l ih =>
    obtain ⟨b, x⟩ := c
    obtain ⟨-, hb, n, hc, hl⟩ := hl
    rcases List.mem_cons.mp ha with rfl | ha
    · exact ⟨hb, by simp [hc]⟩
    · exact ih hl ha

/-- The pointer that a chain of these cells starts with. -/
def first (l : List (Nat × α)) : Nat := ((l.head?).map Prod.fst).getD 0

theorem Chain.eq_first (hl : Chain h p l 0) : p = first l := by
  cases l with
  | nil => exact hl
  | cons c l => exact hl.1

end Heap

namespace Linked
open Heap

variable {s : Linked α} {i : Place} {p q a fuel : Nat} {x : α} {l l₁ l₂ : List (Nat × α)}

/-! ### Places -/

/-- The place behind the cells that follow the place `i`. -/
def after : Place → List (Nat × α) → Place
  | i, [] => i
  | _, (a, _) :: l => after (.next a) l

/-- The cells follow the place. -/
def From (s : Linked α) (i : Place) (l : List (Nat × α)) (q : Nat) : Prop :=
  ∃ p, s.read i = some p ∧ Chain s.heap p l q

theorem from_head : s.From .head l q ↔ Chain s.heap s.head l q := by
  simp [From, read]

theorem from_cons : s.From i ((a, x) :: l) q ↔
    a ≠ 0 ∧ s.read i = some a ∧ (∃ n, s.heap a = some { val := x, next := n }) ∧ s.From (.next a) l q := by
  constructor
  · rintro ⟨p, hp, rfl, ha, n, hc, hl⟩
    exact ⟨ha, hp, ⟨n, hc⟩, n, by simp [read, hc], hl⟩
  · rintro ⟨ha, hp, ⟨n, hc⟩, m, hm, hl⟩
    obtain rfl : n = m := by simpa [read, hc] using hm
    exact ⟨a, hp, rfl, ha, n, hc, hl⟩

theorem read_after (hl : s.From i l q) : s.read (after i l) = some q := by
  induction l generalizing i with
  | nil =>
    obtain ⟨p, hp, rfl⟩ := hl
    exact hp
  | cons c l ih =>
    obtain ⟨a, x⟩ := c
    exact ih (from_cons.mp hl).2.2.2

theorem after_append (i : Place) (l : List (Nat × α)) (a : Nat) (x : α) : after i (l ++ [(a, x)]) = .next a := by
  induction l generalizing i with
  | nil => rfl
  | cons c l ih => exact ih (.next c.1)

/-- The loop passes over the cells that fail the test, and stops at the end or at one that passes. -/
theorem seek_eq (test : α → Bool) (hl : s.From i (l₁ ++ l₂) 0) (hpast : ∀ c ∈ l₁, test c.2 = false)
    (hstop : ∀ c ∈ l₂.head?, test c.2 = true) (hfuel : l₁.length < fuel) : s.seek test fuel i = some (after i l₁) := by
  induction l₁ generalizing i fuel with
  | nil =>
    obtain ⟨fuel, rfl⟩ := Nat.exists_eq_succ_of_ne_zero (Nat.ne_of_gt hfuel)
    cases l₂ with
    | nil =>
      obtain ⟨p, hp, rfl⟩ := hl
      simp [seek, hp, after]
    | cons c l₂ =>
      obtain ⟨a, x⟩ := c
      obtain ⟨ha, hp, ⟨n, hc⟩, -⟩ := from_cons.mp hl
      have htest : test x = true := hstop (a, x) rfl
      simp [seek, hp, ha, hc, htest, after]
  | cons c l₁ ih =>
    obtain ⟨a, x⟩ := c
    obtain ⟨fuel, rfl⟩ := Nat.exists_eq_succ_of_ne_zero (Nat.ne_zero_of_lt hfuel)
    obtain ⟨ha, hp, ⟨n, hc⟩, hrest⟩ := from_cons.mp hl
    obtain ⟨htest, hpast⟩ := List.forall_mem_cons.mp hpast
    have hnext := ih hrest hpast (Nat.lt_of_succ_lt_succ hfuel)
    simpa [seek, hp, ha, hc, htest, after] using hnext

/-- A write behind a chain changes where the chain leads to, and no cell but its last. -/
theorem write_after (hl : Chain s.heap s.head l q) (hnodup : (l.map Prod.fst).Nodup) (r : Nat) :
    ∃ s', s.write r (after .head l) = some s' ∧ Chain s'.heap s'.head l r ∧
      (∀ b ∉ l.map Prod.fst, s'.heap b = s.heap b) ∧ ∀ b, (s'.heap b).isSome = (s.heap b).isSome := by
  rcases List.eq_nil_or_concat l with rfl | ⟨l, ⟨a, x⟩, rfl⟩
  · exact ⟨{ s with head := r }, rfl, rfl, fun _ _ => rfl, fun _ => rfl⟩
  · rw [List.concat_eq_append] at hl hnodup ⊢
    rw [List.map_append, List.nodup_append] at hnodup
    obtain ⟨m, hfront, hlast⟩ := chain_append.mp hl
    obtain ⟨rfl, ha, n, hc, -⟩ := hlast
    have hne : ∀ b ∈ l.map Prod.fst, b ≠ m := fun b hb => hnodup.2.2 b hb m List.mem_cons_self
    refine ⟨{ s with heap := Function.update s.heap m (some { val := x, next := r }) }, ?_, ?_, ?_, ?_⟩
    · simp [after_append, write, hc]
    · refine chain_append.mpr ⟨m, hfront.frame fun b hb => Function.update_of_ne (hne b hb) _ _, ?_⟩
      exact ⟨rfl, ha, r, Function.update_self .., rfl⟩
    · intro b hb
      refine Function.update_of_ne (fun h => hb ?_) _ _
      simp [h]
    · intro b
      by_cases hb : b = m
      · simp [hb, hc]
      · simp [Function.update_of_ne hb]

/-! ### The operations -/

/-- The new cell is the last of the chain, and no cell outside of the chain is touched. -/
theorem append_spec (hl : Chain s.heap s.head l 0) (hnodup : (l.map Prod.fst).Nodup) (hfuel : l.length < fuel)
    (ha : a ≠ 0) (hfree : s.heap a = none) (x : α) :
    ∃ s', s.append fuel a x = some s' ∧ Chain s'.heap s'.head (l ++ [(a, x)]) 0 ∧
      (∀ b ∉ l.map Prod.fst, b ≠ a → s'.heap b = s.heap b) ∧
      ∀ b, (s'.heap b).isSome = true ↔ b ∈ (l ++ [(a, x)]).map Prod.fst ∨ (s.heap b).isSome = true ∧ b ∉ l.map Prod.fst := by
  have hnew : a ∉ l.map Prod.fst := fun h => by simpa [hfree] using (hl.live h).2
  let s₁ : Linked α := { s with heap := Function.update s.heap a (some { val := x, next := 0 }) }
  have hl₁ : Chain s₁.heap s₁.head l 0 := by
    refine hl.frame fun b hb => Function.update_of_ne ?_ _ _
    rintro rfl
    exact hnew hb
  have hseek : s₁.seek (fun _ => false) fuel .head = some (after .head l) :=
    seek_eq _ (from_head.mpr (by rwa [List.append_nil])) (fun _ _ => rfl) (by simp) hfuel
  obtain ⟨s', hs', hchain, hsame, hlive⟩ := write_after hl₁ hnodup a
  have hcell : s'.heap a = some { val := x, next := 0 } := (hsame a hnew).trans (Function.update_self ..)
  refine ⟨s', ?_, chain_append.mpr ⟨a, hchain, rfl, ha, 0, hcell, rfl⟩, fun b hb hne => ?_, fun b => ?_⟩
  · unfold append
    simp only
    rw [hseek]
    exact hs'
  · exact (hsame b hb).trans (Function.update_of_ne hne _ _)
  · rw [hlive b, List.map_append, List.mem_append, List.map_singleton, List.mem_singleton]
    by_cases hb : b = a
    · simp [s₁, hb]
    · have hin : b ∈ l.map Prod.fst → (s.heap b).isSome = true := fun h => (hl.live h).2
      simp only [s₁, Function.update_of_ne hb]
      tauto

/-- The first cell that passes the test is gone from the chain and freed, and no cell outside of the chain is touched. -/
theorem remove_spec (test : α → Bool) (hl : Chain s.heap s.head l 0) (hnodup : (l.map Prod.fst).Nodup)
    (hfuel : l.length < fuel) :
    ∃ s', s.remove test fuel = some s' ∧ Chain s'.heap s'.head (l.eraseP fun c => test c.2) 0 ∧
      (∀ b ∉ l.map Prod.fst, s'.heap b = s.heap b) ∧
      ∀ b, (s'.heap b).isSome = true ↔
        b ∈ (l.eraseP fun c => test c.2).map Prod.fst ∨ (s.heap b).isSome = true ∧ b ∉ l.map Prod.fst := by
  by_cases hsome : ∃ c ∈ l, test c.2 = true
  · obtain ⟨c, hc, htest⟩ := hsome
    obtain ⟨⟨a, x⟩, l₁, l₂, hpast, htest, rfl, herase⟩ := List.exists_of_eraseP (p := fun c : Nat × α => test c.2) hc htest
    rw [herase]
    rw [List.length_append, List.length_cons] at hfuel
    have hseek : s.seek test fuel .head = some (after .head l₁) :=
      seek_eq test (from_head.mpr hl) (fun c hc => by simpa using hpast c hc) (by simpa using htest) (by omega)
    obtain ⟨p, hfront, rfl, ha, n, hcell, hback⟩ := chain_append.mp hl
    rw [List.map_append, List.map_cons, List.nodup_append, List.nodup_cons] at hnodup
    obtain ⟨hfront', ⟨hnew, hback'⟩, hapart⟩ := hnodup
    obtain ⟨s', hs', hchain, hsame, hlive⟩ := write_after hfront hfront' n
    have hpnew : p ∉ l₁.map Prod.fst := fun h => hapart p h p List.mem_cons_self rfl
    have hne : ∀ b ∈ l₂.map Prod.fst, b ∉ l₁.map Prod.fst ∧ b ≠ p := fun b hb =>
      ⟨fun h => hapart b h b (List.mem_cons_of_mem _ hb) rfl, fun h => hnew (h ▸ hb)⟩
    refine ⟨{ s' with heap := Function.update s'.heap p none }, ?_, ?_, ?_, ?_⟩
    · simp [remove, hseek, read_after (from_head.mpr hfront), ha, hcell, hs']
    · refine chain_append.mpr ⟨n, hchain.frame fun b hb => Function.update_of_ne ?_ _ _, hback.frame fun b hb => ?_⟩
      · rintro rfl
        exact hpnew hb
      · exact (Function.update_of_ne (hne b hb).2 _ _).trans (hsame b (hne b hb).1)
    · intro b hb
      rw [List.map_append, List.map_cons, List.mem_append, List.mem_cons, not_or, not_or] at hb
      exact (Function.update_of_ne hb.2.1 _ _).trans (hsame b hb.1)
    · intro b
      rw [List.map_append, List.map_append, List.map_cons, List.mem_append, List.mem_append, List.mem_cons]
      by_cases hb : b = p
      · subst hb
        simp [hpnew, hnew]
      · have hfront : b ∈ l₁.map Prod.fst → (s.heap b).isSome = true := fun h => (hfront.live h).2
        have hback : b ∈ l₂.map Prod.fst → (s.heap b).isSome = true := fun h => (hback.live h).2
        simp only [Function.update_of_ne hb, hlive b]
        tauto
  · have hpast : ∀ c ∈ l, test c.2 = false := fun c hc => by
      rw [Bool.eq_false_iff]
      exact fun h => hsome ⟨c, hc, h⟩
    have hseek : s.seek test fuel .head = some (after .head l) :=
      seek_eq test (from_head.mpr (by rwa [List.append_nil])) hpast (by simp) hfuel
    have herase : (l.eraseP fun c => test c.2) = l := List.eraseP_of_forall_not fun c hc => by simp [hpast c hc]
    refine ⟨s, ?_, by rwa [herase], fun _ _ => rfl, fun b => ?_⟩
    · simp [remove, hseek, read_after (from_head.mpr hl)]
    · have hin : b ∈ l.map Prod.fst → (s.heap b).isSome = true := fun h => (hl.live h).2
      rw [herase]
      tauto

/-- The search finds the first cell that passes the test. -/
theorem search_spec {h : Heap α} {test : α → Option Bool} (found : α → Bool) (hl : Chain h p l 0)
    (htest : ∀ c ∈ l, test c.2 = some (found c.2)) (hfuel : l.length < fuel) :
    search test h fuel p = some (((l.find? fun c => found c.2).map Prod.fst).getD 0) := by
  induction l generalizing p fuel with
  | nil =>
    obtain ⟨fuel, rfl⟩ := Nat.exists_eq_succ_of_ne_zero (Nat.ne_of_gt hfuel)
    obtain rfl : p = 0 := hl
    rfl
  | cons c l ih =>
    obtain ⟨a, x⟩ := c
    obtain ⟨fuel, rfl⟩ := Nat.exists_eq_succ_of_ne_zero (Nat.ne_zero_of_lt hfuel)
    obtain ⟨rfl, ha, n, hc, hrest⟩ := hl
    obtain ⟨hx, htest⟩ := List.forall_mem_cons.mp htest
    cases hfound : found x with
    | true => simp [search, ha, hc, hx, hfound]
    | false => simpa [search, ha, hc, hx, hfound] using ih hrest htest (Nat.lt_of_succ_lt_succ hfuel)

end Linked

namespace Heap

/-! ### A heap made of lists -/

/-- The addresses of the cells of some lists. -/
def cells (L : List (Nat × List (Nat × α))) : List Nat := L.flatMap fun x => x.2.map Prod.fst

/-- The heap consists of these lists, each with its first pointer, and of the cells `lost` that no list reaches. -/
structure Made (h : Heap α) (L : List (Nat × List (Nat × α))) (lost : List Nat) : Prop where
  chains : ∀ x ∈ L, Chain h x.1 x.2 0
  apart : (cells L ++ lost).Nodup
  live : ∀ a, (h a).isSome = true ↔ a ∈ cells L ++ lost

variable {h : Heap α} {p a fuel : Nat} {x y : α} {l l₁ l₂ : List (Nat × α)} {L L' L₁ L₂ : List (Nat × List (Nat × α))}
  {lost : List Nat}

theorem made_empty : Made (fun _ => none : Heap α) [] [] where
  chains _ hx := nomatch hx
  apart := List.nodup_nil
  live a := by simp [cells]

theorem Made.perm (hm : Made h L lost) (hL : L.Perm L') : Made h L' lost := by
  have hcells : (cells L ++ lost).Perm (cells L' ++ lost) := (hL.flatMap_right _).append_right _
  refine ⟨fun x hx => hm.chains x (hL.mem_iff.mpr hx), hcells.nodup_iff.mp hm.apart, fun a => ?_⟩
  rw [hm.live a, hcells.mem_iff]

theorem made_middle {c : Nat × List (Nat × α)} : Made h (L₁ ++ c :: L₂) lost ↔ Made h (c :: (L₁ ++ L₂)) lost :=
  ⟨fun hm => hm.perm List.perm_middle, fun hm => hm.perm List.perm_middle.symm⟩

/-- An empty list takes no memory. -/
theorem made_nil : Made h ((0, []) :: L) lost ↔ Made h L lost := by
  constructor
  · exact fun hm => ⟨fun x hx => hm.chains x (List.mem_cons_of_mem _ hx), hm.apart, hm.live⟩
  · exact fun hm => ⟨List.forall_mem_cons.mpr ⟨rfl, hm.chains⟩, hm.apart, hm.live⟩

/-- A list whose first pointer is dropped. -/
theorem Made.lose (hm : Made h ((p, l) :: L) lost) : Made h L (l.map Prod.fst ++ lost) := by
  have hcells : (cells ((p, l) :: L) ++ lost).Perm (cells L ++ (l.map Prod.fst ++ lost)) := by
    unfold cells
    rw [List.flatMap_cons, List.append_assoc, ← List.append_assoc, ← List.append_assoc]
    exact (List.perm_append_comm).append_right _
  refine ⟨fun x hx => hm.chains x (List.mem_cons_of_mem _ hx), hcells.nodup_iff.mp hm.apart, fun a => ?_⟩
  rw [hm.live a, hcells.mem_iff]

/-- What an operation on one list does to a heap, when it leaves the cells of the others alone. -/
theorem Made.replace {h' : Heap α} {p' : Nat} {l' : List (Nat × α)} (hm : Made h ((p, l) :: L) lost)
    (hl' : Chain h' p' l' 0) (hnodup : (l'.map Prod.fst).Nodup)
    (hsame : ∀ b ∉ l.map Prod.fst, b ∉ l'.map Prod.fst → h' b = h b)
    (hnew : ∀ b ∈ l'.map Prod.fst, b ∈ l.map Prod.fst ∨ h b = none)
    (hlive : ∀ b, (h' b).isSome = true ↔ b ∈ l'.map Prod.fst ∨ (h b).isSome = true ∧ b ∉ l.map Prod.fst) :
    Made h' ((p', l') :: L) lost := by
  have hsplit : ∀ (q : Nat) (m : List (Nat × α)), cells ((q, m) :: L) ++ lost = m.map Prod.fst ++ (cells L ++ lost) :=
    fun q m => by simp [cells]
  have hapart := hm.apart
  have hall := hm.live
  rw [hsplit, List.nodup_append] at hapart
  simp only [hsplit, List.mem_append (s := l.map Prod.fst)] at hall
  obtain ⟨-, hrest, hapart⟩ := hapart
  have hothers : ∀ b ∈ cells L ++ lost, b ∉ l.map Prod.fst ∧ b ∉ l'.map Prod.fst := by
    intro b hb
    have hl : b ∉ l.map Prod.fst := fun h => hapart b h b hb rfl
    refine ⟨hl, fun h => ?_⟩
    rcases hnew b h with h | h
    · exact hl h
    · simpa [h] using (hall b).mpr (Or.inr hb)
  refine ⟨List.forall_mem_cons.mpr ⟨hl', fun x hx => ?_⟩, ?_, fun b => ?_⟩
  · refine (hm.chains x (List.mem_cons_of_mem _ hx)).frame fun b hb => ?_
    obtain ⟨h₁, h₂⟩ := hothers b (List.mem_append_left _ (List.mem_flatMap.mpr ⟨x, hx, hb⟩))
    exact hsame b h₁ h₂
  · rw [hsplit, List.nodup_append]
    refine ⟨hnodup, hrest, fun a ha b hb hab => (hothers b hb).2 (hab ▸ ha)⟩
  · rw [hlive b, hall b, hsplit, List.mem_append (s := l'.map Prod.fst)]
    have hb := hothers b
    tauto

theorem Made.head_nodup (hm : Made h ((p, l) :: L) lost) : (l.map Prod.fst).Nodup := by
  have hapart := hm.apart
  rw [show cells ((p, l) :: L) = l.map Prod.fst ++ cells L from rfl, List.append_assoc] at hapart
  exact (List.nodup_append.mp hapart).1

theorem Made.append (hm : Made h ((p, l) :: L) lost) (hfuel : l.length < fuel) (ha : a ≠ 0) (hfree : h a = none)
    (x : α) :
    ∃ s', Linked.append fuel a x { head := p, heap := h } = some s' ∧
      Made s'.heap ((s'.head, l ++ [(a, x)]) :: L) lost ∧ ∀ b, (s'.heap b).isSome = true → (h b).isSome = true ∨ b = a := by
  have hl : Chain h p l 0 := hm.chains _ List.mem_cons_self
  obtain ⟨s', hs', hchain, hsame, hlive⟩ :=
    Linked.append_spec (s := { head := p, heap := h }) hl hm.head_nodup hfuel ha hfree x
  have hnew : a ∉ l.map Prod.fst := fun h => by simpa [hfree] using (hl.live h).2
  refine ⟨s', hs', hm.replace hchain ?_ (fun b hb hb' => hsame b hb ?_) (fun b hb => ?_) hlive, fun b hb => ?_⟩
  · rw [List.map_append, List.nodup_append]
    refine ⟨hm.head_nodup, List.nodup_singleton _, fun b hb c hc hbc => ?_⟩
    obtain rfl : c = a := List.mem_singleton.mp hc
    exact hnew (hbc ▸ hb)
  · rintro rfl
    exact hb' (by simp)
  · rw [List.map_append, List.mem_append] at hb
    rcases hb with hb | hb
    · exact Or.inl hb
    · obtain rfl : b = a := List.mem_singleton.mp hb
      exact Or.inr hfree
  · rcases (hlive b).mp hb with hb | hb
    · rw [List.map_append, List.mem_append] at hb
      exact hb.imp (fun hb => (hl.live hb).2) List.mem_singleton.mp
    · exact Or.inl hb.1

theorem Made.remove (hm : Made h ((p, l) :: L) lost) (hfuel : l.length < fuel) (test : α → Bool) :
    ∃ s', Linked.remove test fuel { head := p, heap := h } = some s' ∧
      Made s'.heap ((s'.head, l.eraseP fun c => test c.2) :: L) lost ∧
      ∀ b, (s'.heap b).isSome = true → (h b).isSome = true := by
  have hl : Chain h p l 0 := hm.chains _ List.mem_cons_self
  obtain ⟨s', hs', hchain, hsame, hlive⟩ := Linked.remove_spec (s := { head := p, heap := h }) test hl hm.head_nodup hfuel
  have hsub : ((l.eraseP fun c => test c.2).map Prod.fst).Sublist (l.map Prod.fst) := List.eraseP_sublist.map _
  exact ⟨s', hs', hm.replace hchain (hsub.nodup hm.head_nodup) (fun b hb _ => hsame b hb)
    (fun b hb => Or.inl (hsub.subset hb)) hlive,
    fun b hb => ((hlive b).mp hb).elim (fun hb => (hl.live (hsub.subset hb)).2) And.left⟩

/-- A cell of a list can be read. -/
theorem Made.read (hm : Made h ((p, l₁ ++ (a, x) :: l₂) :: L) lost) : a ≠ 0 ∧ ∃ n, h a = some { val := x, next := n } := by
  obtain ⟨r, -, -, ha, n, hc, -⟩ := chain_append.mp (hm.chains _ List.mem_cons_self)
  exact ⟨ha, n, hc⟩

/-- Below an address from which on nothing is live, a list has not as many cells. -/
theorem Made.length_lt {top : Nat} (hm : Made h ((p, l) :: L) lost) (hpos : 0 < top)
    (htop : ∀ a, (h a).isSome = true → a < top) : l.length < top := by
  have hl : Chain h p l 0 := hm.chains _ List.mem_cons_self
  have hsub : (0 :: l.map Prod.fst) ⊆ List.range top := by
    refine List.cons_subset.mpr ⟨List.mem_range.mpr hpos, fun a ha => ?_⟩
    exact List.mem_range.mpr (htop a (hl.live ha).2)
  have hnodup : (0 :: l.map Prod.fst).Nodup :=
    List.nodup_cons.mpr ⟨fun h0 => (hl.live h0).1 rfl, hm.head_nodup⟩
  have := (List.subperm_of_subset hnodup hsub).length_le
  rwa [List.length_cons, List.length_map, List.length_range] at this

/-- The number of live cells. -/
noncomputable def size (h : Heap α) : Nat := Set.ncard {a | (h a).isSome = true}

theorem Made.size_eq (hm : Made h L lost) : h.size = (L.map fun x => x.2.length).sum + lost.length := by
  have hset : {a | (h a).isSome = true} = ((cells L ++ lost).toFinset : Set Nat) := by
    ext a
    simpa using hm.live a
  have hcells : (cells L).length = (L.map fun x => x.2.length).sum := by
    simp [cells, List.length_flatMap]
  rw [size, hset, Set.ncard_coe_finset, List.toFinset_card_of_nodup hm.apart, List.length_append, hcells]

/-- A write to the value of a cell. -/
theorem Made.set {n : Nat} (hm : Made h ((p, l₁ ++ (a, x) :: l₂) :: L) lost)
    (ha : h a = some { val := x, next := n }) (y : α) :
    Made (Function.update h a (some { val := y, next := n })) ((p, l₁ ++ (a, y) :: l₂) :: L) lost := by
  have hl : Chain h p (l₁ ++ (a, x) :: l₂) 0 := hm.chains _ List.mem_cons_self
  have hnodup := hm.head_nodup
  have haddrs : (l₁ ++ (a, y) :: l₂).map Prod.fst = (l₁ ++ (a, x) :: l₂).map Prod.fst := by simp
  refine hm.replace ?_ (haddrs ▸ hnodup) (fun b hb _ => ?_) (fun b hb => Or.inl (haddrs ▸ hb)) fun b => ?_
  · rw [List.map_append, List.map_cons, List.nodup_append, List.nodup_cons] at hnodup
    obtain ⟨-, ⟨hback, -⟩, hfront⟩ := hnodup
    obtain ⟨r, h₁, rfl, ha0, m, hc, h₂⟩ := chain_append.mp hl
    rw [ha] at hc
    obtain ⟨-, rfl⟩ : x = x ∧ n = m := by simpa using hc
    refine chain_append.mpr ⟨r, h₁.frame fun b hb => Function.update_of_ne ?_ _ _, rfl, ha0, n, Function.update_self .., ?_⟩
    · rintro rfl
      exact hfront b hb b List.mem_cons_self rfl
    · refine h₂.frame fun b hb => Function.update_of_ne ?_ _ _
      rintro rfl
      exact hback hb
  · refine Function.update_of_ne ?_ _ _
    rintro rfl
    simp at hb
  · rw [haddrs]
    by_cases hb : b = a
    · simp [hb]
    · rw [Function.update_of_ne hb]
      have hin : b ∈ (l₁ ++ (a, x) :: l₂).map Prod.fst → (h b).isSome = true := fun h => (hl.live h).2
      tauto

end Heap
end Linked
