import Mathlib.Logic.Relation

/-! Walking a list from its head while an update of each element also changes a state that is handed on,
as a loop over a linked list with a callback does.

`Within R` is one `R`-step of one element and the state, at any place of a list. A walk whose updates are
made of `R`-steps is made of such steps, so what each of them keeps, wherever it happens, the walk keeps. -/

open Relation

section Walk
variable {α σ τ : Type}

/-- Update the elements from the head on; each update sees the state the earlier ones left. -/
def walk (f : α → σ → α × σ) : List α → σ → List α × σ
  | [], s => ([], s)
  | x :: xs, s =>
    let y := f x s
    let rest := walk f xs y.2
    (y.1 :: rest.1, rest.2)

@[simp] theorem walk_nil (f : α → σ → α × σ) (s : σ) : walk f [] s = ([], s) := rfl

@[simp] theorem walk_cons (f : α → σ → α × σ) (x : α) (xs : List α) (s : σ) :
    walk f (x :: xs) s = ((f x s).1 :: (walk f xs (f x s).2).1, (walk f xs (f x s).2).2) := rfl

theorem walk_append (f : α → σ → α × σ) (xs ys : List α) (s : σ) : walk f (xs ++ ys) s =
    ((walk f xs s).1 ++ (walk f ys (walk f xs s).2).1, (walk f ys (walk f xs s).2).2) := by
  induction xs generalizing s with
  | nil => rfl
  | cons x xs ih => simp [ih]

/-- What each update keeps of its element is kept of the list. -/
theorem walk_map {β : Type} {f : α → σ → α × σ} {g : α → β} (h : ∀ x s, g (f x s).1 = g x) (xs : List α)
    (s : σ) : (walk f xs s).1.map g = xs.map g := by
  induction xs generalizing s with
  | nil => rfl
  | cons x xs ih => simp [h, ih]

/-- What each update keeps of the state is kept by the walk. -/
theorem walk_state {β : Type} {f : α → σ → α × σ} {g : σ → β} (h : ∀ x s, g (f x s).2 = g s) (xs : List α)
    (s : σ) : g (walk f xs s).2 = g s := by
  induction xs generalizing s with
  | nil => rfl
  | cons x xs ih => exact (ih _).trans (h x s)

theorem forall_mem_walk {f : α → σ → α × σ} {P : α → Prop} (h : ∀ x s, P (f x s).1) (xs : List α) (s : σ) :
    ∀ y ∈ (walk f xs s).1, P y := by
  induction xs generalizing s with
  | nil => simp
  | cons x xs ih =>
    rw [walk_cons]
    exact List.forall_mem_cons.mpr ⟨h x s, ih _⟩

/-- What the updates of a walk keep of each element. -/
theorem forall_mem_walk_of {f : α → σ → α × σ} {P : α → Prop} (h : ∀ x s, P x → P (f x s).1) (xs : List α) (s : σ)
    (hxs : ∀ x ∈ xs, P x) : ∀ y ∈ (walk f xs s).1, P y := by
  induction xs generalizing s with
  | nil => simp
  | cons x xs ih =>
    obtain ⟨hx, hxs⟩ := List.forall_mem_cons.mp hxs
    rw [walk_cons]
    exact List.forall_mem_cons.mpr ⟨h x s hx, ih _ hxs⟩

/-- What the updates of a walk note, in their order. -/
def walkNotes {β : Type} (f : α → σ → α × σ) (note : α → σ → List β) : List α → σ → List β
  | [], _ => []
  | x :: xs, s => note x s ++ walkNotes f note xs (f x s).2

theorem forall_mem_walkNotes {β : Type} {f : α → σ → α × σ} {note : α → σ → List β} {Q : α → Prop} {P : β → Prop}
    (h : ∀ x s, Q x → ∀ b ∈ note x s, P b) (xs : List α) (s : σ) (hxs : ∀ x ∈ xs, Q x) :
    ∀ b ∈ walkNotes f note xs s, P b := by
  induction xs generalizing s with
  | nil => simp [walkNotes]
  | cons x xs ih =>
    obtain ⟨hx, hxs⟩ := List.forall_mem_cons.mp hxs
    exact List.forall_mem_append.mpr ⟨h x s hx, ih _ hxs⟩

/-- Every element's update notes something, in a state with what all updates keep. -/
theorem walkNotes_of_mem {β : Type} {f : α → σ → α × σ} {note : α → σ → List β} {I : σ → Prop}
    (hI : ∀ x s, I s → I (f x s).2) {xs : List α} {s : σ} (hs : I s) {x : α} (hx : x ∈ xs) :
    ∃ t, I t ∧ ∀ b ∈ note x t, b ∈ walkNotes f note xs s := by
  induction xs generalizing s with
  | nil => cases hx
  | cons y xs ih =>
    rcases List.mem_cons.mp hx with rfl | hx
    · exact ⟨s, hs, fun b hb => List.mem_append_left _ hb⟩
    · obtain ⟨t, ht, hnote⟩ := ih (hI y s hs) hx
      exact ⟨t, ht, fun b hb => List.mem_append_right _ (hnote b hb)⟩

/-! ### Steps within a list -/

inductive Within (R : α × σ → α × σ → Prop) : List α × σ → List α × σ → Prop
  | step (pre post : List α) {x y : α} {s t : σ} (h : R (x, s) (y, t)) :
    Within R (pre ++ x :: post, s) (pre ++ y :: post, t)

variable {R : α × τ → α × τ → Prop}

theorem ReflTransGen.within {x y : α} {s t : τ} (pre post : List α) (h : ReflTransGen R (x, s) (y, t)) :
    ReflTransGen (Within R) (pre ++ x :: post, s) (pre ++ y :: post, t) :=
  h.lift (fun c : α × τ => (pre ++ c.1 :: post, c.2)) fun _ _ hs => Within.step pre post hs

/-- A walk over a state that contains the one of the steps. -/
theorem walk_within {f : α → σ → α × σ} {view : σ → τ}
    (h : ∀ x s, ReflTransGen R (x, view s) ((f x s).1, view (f x s).2)) (pre xs : List α) (s : σ) :
    ReflTransGen (Within R) (pre ++ xs, view s) (pre ++ (walk f xs s).1, view (walk f xs s).2) := by
  induction xs generalizing pre s with
  | nil => exact .refl
  | cons x xs ih =>
    have hx := ReflTransGen.within pre xs (h x s)
    have hrest := ih (pre ++ [(f x s).1]) (f x s).2
    rw [List.append_assoc, List.append_assoc] at hrest
    exact hx.trans hrest

theorem ReflTransGen.keeps {γ : Type} {r : γ → γ → Prop} {I : γ → Prop} (hI : ∀ c c', r c c' → I c → I c') {c c' : γ}
    (h : ReflTransGen r c c') (hc : I c) : I c' := by
  induction h with
  | refl => exact hc
  | tail _ hs ih => exact hI _ _ hs ih

/-- What every step keeps holds wherever a walk notes something. -/
theorem forall_mem_walkNotes_within {β : Type} {f : α → σ → α × σ} {note : α → σ → List β}
    {I : List α × τ → Prop} {P : β → Prop} (view : σ → τ) (hI : ∀ c c', Within R c c' → I c → I c')
    (h : ∀ x s, ReflTransGen R (x, view s) ((f x s).1, view (f x s).2))
    (hnote : ∀ pre x post s, I (pre ++ x :: post, view s) → ∀ b ∈ note x s, P b) (pre xs : List α) (s : σ)
    (hxs : I (pre ++ xs, view s)) : ∀ b ∈ walkNotes f note xs s, P b := by
  induction xs generalizing pre s with
  | nil => simp [walkNotes]
  | cons x xs ih =>
    have hnext : I (pre ++ (f x s).1 :: xs, view (f x s).2) :=
      ReflTransGen.keeps hI (ReflTransGen.within pre xs (h x s)) hxs
    rw [List.append_cons] at hnext
    exact List.forall_mem_append.mpr ⟨hnote pre x xs s hxs, ih _ _ hnext⟩

end Walk
