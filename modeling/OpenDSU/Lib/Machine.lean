import Mathlib.Logic.Basic

/-! Transition systems given by a step function, their runs, and what holds at every state of a run.

A run is a list of actions. An action that is not enabled ends the run, so a statement about every list
of actions is a statement about every run. -/

/-- A transition system: its initial states, and the state an action leads to (`none` where the action is
    not enabled). -/
structure Machine (σ α : Type) where
  init : σ → Prop
  step : σ → α → Option σ

namespace Machine
variable {σ α : Type} (M : Machine σ α)

/-- The state after a list of actions. -/
def run : σ → List α → Option σ
  | s, [] => some s
  | s, a :: as => (M.step s a).bind fun t => run t as

theorem run_append (s : σ) (as bs : List α) : M.run s (as ++ bs) = (M.run s as).bind fun t => M.run t bs := by
  induction as generalizing s with
  | nil => rfl
  | cons a as ih =>
    simp only [List.cons_append, run, Option.bind_assoc]
    exact congrArg _ (funext ih)

/-- The states that the runs from an initial state visit. -/
inductive Reachable : σ → Prop
  | init {s : σ} (h : M.init s) : Reachable s
  | step {s t : σ} (a : α) (hr : Reachable s) (hs : M.step s a = some t) : Reachable t

/-- The same system with only the actions that `allow` admits. -/
def restrict (allow : α → Bool) : Machine σ α where
  init := M.init
  step s a := if allow a then M.step s a else none

/-- The same system with only the steps that `ok` admits in the state they are taken from. -/
def guard (ok : σ → α → Bool) : Machine σ α where
  init := M.init
  step s a := if ok s a then M.step s a else none

/-- `P` holds at every state that the run from `s` visits. -/
def Throughout (P : σ → Prop) : σ → List α → Prop
  | s, [] => P s
  | s, a :: as => P s ∧ ∀ t, M.step s a = some t → Throughout P t as

/-- Every step that the run from `s` takes satisfies `ok`. -/
def Steps (ok : σ → α → Prop) : σ → List α → Prop
  | _, [] => True
  | s, a :: as => ∀ t, M.step s a = some t → ok s a ∧ Steps ok t as

/-- Every action that the run from `s` takes up satisfies `ok`, also one that is not enabled. -/
def Attempts (ok : σ → α → Prop) : σ → List α → Prop
  | _, [] => True
  | s, a :: as => ok s a ∧ ∀ t, M.step s a = some t → Attempts ok t as

/-- Some step that the run from `s` takes satisfies `P`. -/
def Happens (P : σ → α → Prop) : σ → List α → Prop
  | _, [] => False
  | s, a :: as => ∃ t, M.step s a = some t ∧ (P s a ∨ Happens P t as)

/-- Some run from `s` of steps that satisfy `ok` ends in a state with `P`. -/
def Can (ok : σ → α → Prop) (P : σ → Prop) (s : σ) : Prop := ∃ as t, M.run s as = some t ∧ M.Steps ok s as ∧ P t

instance Attempts.decidable (ok : σ → α → Prop) [∀ s a, Decidable (ok s a)] :
    (s : σ) → (as : List α) → Decidable (M.Attempts ok s as)
  | _, [] => .isTrue trivial
  | s, a :: as =>
    match h : M.step s a with
    | none => decidable_of_iff (ok s a) ⟨fun hp => ⟨hp, fun _ ht => nomatch h.symm.trans ht⟩, fun hp => hp.1⟩
    | some t =>
      have := Attempts.decidable ok t as
      decidable_of_iff (ok s a ∧ M.Attempts ok t as)
        ⟨fun hp => ⟨hp.1, fun _ ht => Option.some.inj (h.symm.trans ht) ▸ hp.2⟩, fun hp => ⟨hp.1, hp.2 t h⟩⟩

instance Steps.decidable (ok : σ → α → Prop) [∀ s a, Decidable (ok s a)] :
    (s : σ) → (as : List α) → Decidable (M.Steps ok s as)
  | _, [] => .isTrue trivial
  | s, a :: as =>
    match h : M.step s a with
    | none => .isTrue fun _ ht => nomatch h.symm.trans ht
    | some t =>
      have := Steps.decidable ok t as
      decidable_of_iff (ok s a ∧ M.Steps ok t as)
        ⟨fun hp _ ht => Option.some.inj (h.symm.trans ht) ▸ hp, fun hp => hp t h⟩

instance Happens.decidable (P : σ → α → Prop) [∀ s a, Decidable (P s a)] :
    (s : σ) → (as : List α) → Decidable (M.Happens P s as)
  | _, [] => .isFalse id
  | s, a :: as =>
    match h : M.step s a with
    | none => .isFalse fun ⟨_, ht, _⟩ => nomatch h.symm.trans ht
    | some t =>
      have := Happens.decidable P t as
      decidable_of_iff (P s a ∨ M.Happens P t as)
        ⟨fun hp => ⟨t, h, hp⟩, fun ⟨_, ht, hp⟩ => Option.some.inj (h.symm.trans ht) ▸ hp⟩

instance Throughout.decidable (P : σ → Prop) [∀ s, Decidable (P s)] :
    (s : σ) → (as : List α) → Decidable (M.Throughout P s as)
  | s, [] => inferInstanceAs (Decidable (P s))
  | s, a :: as =>
    match h : M.step s a with
    | none => decidable_of_iff (P s) ⟨fun hp => ⟨hp, fun _ ht => nomatch h.symm.trans ht⟩, fun hp => hp.1⟩
    | some t =>
      have := Throughout.decidable P t as
      decidable_of_iff (P s ∧ M.Throughout P t as)
        ⟨fun hp => ⟨hp.1, fun _ ht => Option.some.inj (h.symm.trans ht) ▸ hp.2⟩, fun hp => ⟨hp.1, hp.2 t h⟩⟩

variable {M} {s t : σ} {P I : σ → Prop} {ok : σ → α → Prop}

theorem Throughout.head {as : List α} (h : M.Throughout P s as) : P s := by
  cases as with
  | nil => exact h
  | cons a as => exact h.1

/-- Every step of such a run begins in a state with `P`. -/
theorem Throughout.steps {as : List α} (h : M.Throughout P s as) (hok : M.Steps ok s as) :
    M.Steps (fun s a => P s ∧ ok s a) s as := by
  induction as generalizing s with
  | nil => trivial
  | cons a as ih =>
    intro t hs
    obtain ⟨ha, hrest⟩ := hok t hs
    exact ⟨⟨h.1, ha⟩, ih (h.2 t hs) hrest⟩

theorem Steps.of_forall {p : α → Prop} {as : List α} (h : ∀ a ∈ as, p a) : M.Steps (fun _ a => p a) s as := by
  induction as generalizing s with
  | nil => trivial
  | cons a as ih =>
    exact fun t _ => ⟨h a List.mem_cons_self, ih fun b hb => h b (List.mem_cons_of_mem _ hb)⟩

theorem Steps.and {ok' : σ → α → Prop} {as : List α} (h : M.Steps ok s as) (h' : M.Steps ok' s as) :
    M.Steps (fun s a => ok s a ∧ ok' s a) s as := by
  induction as generalizing s with
  | nil => trivial
  | cons a as ih =>
    intro t hs
    obtain ⟨ha, hrest⟩ := h t hs
    obtain ⟨ha', hrest'⟩ := h' t hs
    exact ⟨⟨ha, ha'⟩, ih hrest hrest'⟩

theorem Reachable.of_run (as : List α) (hr : M.Reachable s) (h : M.run s as = some t) : M.Reachable t := by
  induction as generalizing s with
  | nil =>
    cases h
    exact hr
  | cons a as ih =>
    simp only [run, Option.bind_eq_some_iff] at h
    obtain ⟨u, hu, h⟩ := h
    exact ih (hr.step a hu) h

theorem restrict_step_iff {allow : α → Bool} {a : α} :
    (M.restrict allow).step s a = some t ↔ allow a = true ∧ M.step s a = some t := by
  cases h : allow a <;> simp [restrict, h]

theorem guard_step_iff {ok : σ → α → Bool} {a : α} :
    (M.guard ok).step s a = some t ↔ ok s a = true ∧ M.step s a = some t := by
  cases h : ok s a <;> simp [guard, h]

/-- What the guarded system reaches, the whole one does. -/
theorem Reachable.of_guard {ok : σ → α → Bool} (h : (M.guard ok).Reachable s) : M.Reachable s := by
  induction h with
  | init h => exact .init h
  | step a _ hs ih => exact ih.step a (guard_step_iff.mp hs).2

theorem Steps.of_append {as bs : List α} (h : M.Steps ok s (as ++ bs)) (hrun : M.run s as = some t) : M.Steps ok t bs := by
  induction as generalizing s with
  | nil =>
    cases hrun
    exact h
  | cons a as ih =>
    simp only [run, Option.bind_eq_some_iff] at hrun
    obtain ⟨u, hu, hrun⟩ := hrun
    exact ih (h u hu).2 hrun

/-- A run of the guarded system is one of the whole, whose steps are admitted. -/
theorem run_guard_iff {ok : σ → α → Bool} {as : List α} :
    (M.guard ok).run s as = some t ↔ M.run s as = some t ∧ M.Steps (fun s a => ok s a = true) s as := by
  induction as generalizing s with
  | nil => simp [run, Steps]
  | cons a as ih =>
    simp only [run, Option.bind_eq_some_iff, guard_step_iff]
    constructor
    · rintro ⟨u, ⟨hg, hu⟩, hrun⟩
      obtain ⟨hrun, hok⟩ := ih.mp hrun
      exact ⟨⟨u, hu, hrun⟩, fun v hv => ⟨hg, Option.some.inj (hu.symm.trans hv) ▸ hok⟩⟩
    · rintro ⟨⟨u, hu, hrun⟩, hok⟩
      obtain ⟨hg, hok⟩ := hok u hu
      exact ⟨u, ⟨hg, hu⟩, ih.mpr ⟨hrun, hok⟩⟩

/-- The invariant rule: what holds initially and is kept by every step holds at every reachable state. -/
theorem Reachable.invariant (h : M.Reachable s) (start : ∀ s, M.init s → I s)
    (keep : ∀ s a t, I s → M.step s a = some t → I t) : I s := by
  induction h with
  | init h => exact start _ h
  | step a _ hs ih => exact keep _ a _ ih hs

/-- The invariant rule for a run whose steps all satisfy `ok`. -/
theorem Steps.throughout (good : ∀ s, I s → P s) (keep : ∀ s a t, I s → ok s a → M.step s a = some t → I t)
    {as : List α} (h : I s) (hok : M.Steps ok s as) : M.Throughout P s as := by
  induction as generalizing s with
  | nil => exact good s h
  | cons a as ih =>
    refine ⟨good s h, fun t hs => ?_⟩
    obtain ⟨ha, hrest⟩ := hok t hs
    exact ih (keep s a t h ha hs) hrest

/-- Where the invariant `I` gives `P`, is kept by exactly the steps that satisfy `ok`, and any other step
    breaks `P` at once, a run keeps `P` throughout if and only if all its steps satisfy `ok`. -/
theorem throughout_iff_steps (good : ∀ s, I s → P s)
    (keep : ∀ s a t, I s → ok s a → M.step s a = some t → I t)
    (only : ∀ s a t, I s → M.step s a = some t → P t → ok s a) (as : List α) (h : I s) :
    M.Throughout P s as ↔ M.Steps ok s as := by
  refine ⟨fun hp => ?_, Steps.throughout good keep h⟩
  induction as generalizing s with
  | nil => trivial
  | cons a as ih =>
    intro t hs
    have ha := only s a t h hs (hp.2 t hs).head
    exact ⟨ha, ih (keep s a t h ha hs) (hp.2 t hs)⟩

/-- Where every step that satisfies `ok` keeps the invariant `I` and satisfies `ok'`, a run of such steps does. -/
theorem Steps.imp {ok' : σ → α → Prop} (keep : ∀ s a t, I s → ok s a → M.step s a = some t → I t)
    (good : ∀ s a t, I s → ok s a → M.step s a = some t → ok' s a) {as : List α} (h : I s)
    (hok : M.Steps ok s as) : M.Steps ok' s as := by
  induction as generalizing s with
  | nil => trivial
  | cons a as ih =>
    intro t hs
    obtain ⟨ha, hrest⟩ := hok t hs
    exact ⟨good s a t h ha hs, ih (keep s a t h ha hs) hrest⟩

/-- The same for every action that the run takes up. -/
theorem Attempts.imp {ok' : σ → α → Prop} (keep : ∀ s a t, I s → ok s a → M.step s a = some t → I t)
    (good : ∀ s a, I s → ok s a → ok' s a) {as : List α} (h : I s) (hok : M.Attempts ok s as) : M.Attempts ok' s as := by
  induction as generalizing s with
  | nil => trivial
  | cons a as ih => exact ⟨good s a h hok.1, fun t hs => ih (keep s a t h hok.1 hs) (hok.2 t hs)⟩

theorem Attempts.cons {a : α} {as : List α} (h : M.step s a = some t) (ha : ok s a) (hrest : M.Attempts ok t as) :
    M.Attempts ok s (a :: as) :=
  ⟨ha, fun _ hu => Option.some.inj (h.symm.trans hu) ▸ hrest⟩

/-- The action that a run takes up at its end. -/
theorem Attempts.last {l : List α} {a : α} (h : M.Attempts ok s (l ++ [a])) (hrun : M.run s l = some t) : ok t a := by
  induction l generalizing s with
  | nil =>
    cases hrun
    exact h.1
  | cons b l ih =>
    simp only [run, Option.bind_eq_some_iff] at hrun
    obtain ⟨u, hu, hrun⟩ := hrun
    exact ih (h.2 u hu) hrun

/-- The invariant rule for one run: what every step that satisfies `ok` keeps holds at the end of a run of such
    steps. -/
theorem Steps.invariant (keep : ∀ s a t, I s → ok s a → M.step s a = some t → I t) {as : List α} (h : I s)
    (hok : M.Steps ok s as) (hrun : M.run s as = some t) : I t := by
  induction as generalizing s with
  | nil =>
    cases hrun
    exact h
  | cons a as ih =>
    simp only [run, Option.bind_eq_some_iff] at hrun
    obtain ⟨u, hu, hrun⟩ := hrun
    obtain ⟨ha, hrest⟩ := hok u hu
    exact ih (keep s a u h ha hu) hrest hrun

/-- The rule of a turn: what a step that satisfies `Q` brings about, and every later step keeps, holds at the end of
    a run in which such a step happens. -/
theorem Happens.lasts {Q : σ → α → Prop} (keep : ∀ s a t, I s → ok s a → M.step s a = some t → I t)
    (turn : ∀ s a t, I s → Q s a → M.step s a = some t → P t)
    (last : ∀ s a t, I s → ok s a → P s → M.step s a = some t → P t) {as : List α} (h : I s) (hok : M.Steps ok s as)
    (hQ : M.Happens Q s as) (hrun : M.run s as = some t) : P t := by
  induction as generalizing s with
  | nil => exact hQ.elim
  | cons a as ih =>
    obtain ⟨u, hu, hQ⟩ := hQ
    obtain ⟨ha, hrest⟩ := hok u hu
    have hrun' : M.run u as = some t := by simpa [run, hu] using hrun
    rcases hQ with hQ | hQ
    · exact (hrest.invariant (I := fun s => I s ∧ P s)
        (fun s a t hi ha hs => ⟨keep s a t hi.1 ha hs, last s a t hi.1 ha hi.2 hs⟩)
        ⟨keep s a u h ha hu, turn s a u h hQ hu⟩ hrun').2
    · exact ih (keep s a u h ha hu) hrest hQ hrun'

theorem Can.here (h : P s) : M.Can ok P s := ⟨[], s, rfl, trivial, h⟩

theorem Can.step (a : α) (hs : M.step s a = some t) (ha : ok s a) (h : M.Can ok P t) : M.Can ok P s := by
  obtain ⟨as, u, hrun, hok, hu⟩ := h
  exact ⟨a :: as, u, by simp [run, hs, hrun], fun v hv => ⟨ha, Option.some.inj (hs.symm.trans hv) ▸ hok⟩, hu⟩

theorem Can.mono {Q : σ → Prop} (h : M.Can ok P s) (hPQ : ∀ t, P t → Q t) : M.Can ok Q s := by
  obtain ⟨as, t, hrun, hok, ht⟩ := h
  exact ⟨as, t, hrun, hok, hPQ t ht⟩

/-- With more steps allowed, no less can be reached. -/
theorem Can.weaken {ok' : σ → α → Prop} (h : M.Can ok P s) (hok : ∀ s a, ok s a → ok' s a) : M.Can ok' P s := by
  obtain ⟨as, t, hrun, has, ht⟩ := h
  exact ⟨as, t, hrun, has.imp (I := fun _ => True) (fun _ _ _ _ _ _ => trivial) (fun s a _ _ ha _ => hok s a ha) trivial, ht⟩

/-- One run after another, where `R` is what every step keeps. -/
theorem Can.bind {R Q : σ → Prop} (keep : ∀ s a t, R s → ok s a → M.step s a = some t → R t) (hr : R s)
    (h : M.Can ok P s) (next : ∀ t, R t → P t → M.Can ok Q t) : M.Can ok Q s := by
  obtain ⟨as, t, hrun, hok, ht⟩ := h
  induction as generalizing s with
  | nil =>
    cases hrun
    exact next _ hr ht
  | cons a as ih =>
    simp only [run, Option.bind_eq_some_iff] at hrun
    obtain ⟨u, hu, hrun⟩ := hrun
    obtain ⟨ha, hok⟩ := hok u hu
    exact .step a hu ha (ih (keep s a u hr ha hu) hrun hok)

/-- The measure rule: where every state with `R` has `P` or a step that keeps `R` and lowers the measure, a state with `R`
    leads to `P`. -/
theorem Can.of_measure {R : σ → Prop} (m : σ → Nat)
    (next : ∀ s, R s → P s ∨ ∃ a t, M.step s a = some t ∧ ok s a ∧ R t ∧ m t < m s) (h : R s) : M.Can ok P s := by
  induction hm : m s using Nat.strongRecOn generalizing s with
  | ind k ih =>
    rcases next s h with hp | ⟨a, t, hs, ha, ht, hlt⟩
    · exact .here hp
    · exact .step a hs ha (ih (m t) (hm ▸ hlt) ht rfl)

/-- What every step keeps, every run keeps. -/
theorem run_invariant (keep : ∀ s a t, I s → M.step s a = some t → I t) {as : List α} (h : I s)
    (hrun : M.run s as = some t) : I t :=
  Steps.invariant (fun s a t hi _ hs => keep s a t hi hs) h
    (Steps.of_forall (p := fun _ => True) fun _ _ => trivial) hrun

end Machine
