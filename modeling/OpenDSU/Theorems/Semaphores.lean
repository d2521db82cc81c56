import OpenDSU.Semaphore
import OpenDSU.Theorems.PortStep

/-! Whether the processes of a port share their semaphores.

A first version makes two objects under one and the same name, one after the other, so the name is left
with the descriptor lock; a version that inherits opens that object for both semaphores. The semaphores
of a port are what they should be in every state of a run if and only if no `bind` of the run inherits. -/

namespace OpenDSU

theorem pathnames_eq (port : Nat) : pathnameStatusSem port = pathnameFdSem port := rfl

namespace SemState

/-- The holders of one lineage share both semaphores, which are two objects; their sections exclude each
    other, and within a section the descriptor lock is free when nobody of the lineage holds it. -/
structure SemsShared (s : SemState) : Prop where
  same : ∀ h ∈ s.holders, ∀ h' ∈ s.holders, h.lineage = h'.lineage →
    h.sock.statusSem = h'.sock.statusSem ∧ h.sock.fdSem = h'.sock.fdSem
  distinct : ∀ h ∈ s.holders, h.sock.statusSem ≠ h.sock.fdSem
  exclusive : ∀ (i j : Nat) (h h' : Holder), s.holders[i]? = some h → s.holders[j]? = some h' → h.lineage = h'.lineage →
    h.inside = true → h'.inside = true → i = j
  lockable : ∀ h ∈ s.holders, h.inside = true →
    (∀ h' ∈ s.holders, h'.lineage = h.lineage → h'.sock.locked = false) →
    (s.table.tryWait h.sock.fdSem).isSome = true

/-- The bind does not inherit. -/
def NoInherit (_ : SemState) : SemAct → Prop
  | .bindInherit _ => False
  | _ => True

/-- The holders inside a section under `status_sem` `o`. -/
def insideOn (l : List Holder) (o : Nat) : Nat := l.countP fun h => h.inside && h.sock.statusSem == o

/-- The holders that have locked the descriptor with `fd_sem` `o`. -/
def lockedOn (l : List Holder) (o : Nat) : Nat := l.countP fun h => h.sock.locked && h.sock.fdSem == o

/-- What every step but an inheriting bind keeps. -/
structure Separate (s : SemState) : Prop where
  made : ∀ h ∈ s.holders, h.sock.statusSem ≤ s.table.allocated ∧ h.sock.fdSem ≤ s.table.allocated
  lineage : ∀ h ∈ s.holders, h.lineage < s.lineages
  apart : ∀ h ∈ s.holders, ∀ h' ∈ s.holders, h.sock.statusSem ≠ h'.sock.fdSem
  status : ∀ h ∈ s.holders, ∀ h' ∈ s.holders, h.lineage = h'.lineage ↔ h.sock.statusSem = h'.sock.statusSem
  fd : ∀ h ∈ s.holders, ∀ h' ∈ s.holders, h.lineage = h'.lineage ↔ h.sock.fdSem = h'.sock.fdSem
  /-- A status semaphore is a mutex: it is free, or one holder is inside. -/
  mutex : ∀ h ∈ s.holders, s.table.value h.sock.statusSem + insideOn s.holders h.sock.statusSem = 1
  /-- A descriptor lock that nobody holds is free. -/
  free : ∀ h ∈ s.holders, 1 ≤ s.table.value h.sock.fdSem + lockedOn s.holders h.sock.fdSem

variable {s t : SemState}

/-! ### Inversion -/

theorem bindFirst_inv (hs : s.step .bindFirst = some t) : t = { s with
    table := (bindFirstSems s.port s.table { dsuSocketListInit with port := s.port }).1
    holders := s.holders ++ [{
      lineage := s.lineages
      sock := (bindFirstSems s.port s.table { dsuSocketListInit with port := s.port }).2
      inside := false }]
    lineages := s.lineages + 1 } :=
  (Option.some.inj hs).symm

theorem bindInherit_inv {i : Nat} (hs : s.step (.bindInherit i) = some t) :
    ∃ h ∈ s.holders, ∃ table sock,
      bindInheritSems s.port s.table { dsuSocketListInit with port := s.port } = (table, sock) ∧
      t = { s with
        table := table
        holders := s.holders ++ [{ lineage := h.lineage, sock := sock, inside := false }] } := by
  simp only [step] at hs
  split at hs
  · rename_i h hi
    exact ⟨h, List.mem_of_getElem? hi, _, _, rfl, (Option.some.inj hs).symm⟩
  · cases hs

theorem fork_inv {i : Nat} (hs : s.step (.fork i) = some t) :
    ∃ h ∈ s.holders, h.inside = false ∧ t = { s with holders := s.holders ++ [h] } := by
  simp only [step] at hs
  split at hs
  · rename_i h hi
    split at hs
    · cases hs
    · rename_i hin
      exact ⟨h, List.mem_of_getElem? hi, by simpa using hin, (Option.some.inj hs).symm⟩
  · cases hs

theorem enter_inv {i : Nat} (hs : s.step (.enter i) = some t) :
    ∃ h, s.holders[i]? = some h ∧ h.inside = false ∧ 0 < s.table.value h.sock.statusSem ∧
      t = { s with
        table := s.table.setValue h.sock.statusSem (s.table.value h.sock.statusSem - 1)
        holders := s.holders.set i { h with inside := true } } := by
  simp only [step] at hs
  split at hs
  · rename_i h hi
    split at hs
    · cases hs
    · rename_i hin
      obtain ⟨table, ht, rfl⟩ := Option.map_eq_some_iff.mp hs
      obtain ⟨hpos, rfl⟩ := SemTable.tryWait_eq_some.mp ht
      exact ⟨h, hi, by simpa using hin, hpos, rfl⟩
  · cases hs

theorem leave_inv {i : Nat} (hs : s.step (.leave i) = some t) :
    ∃ h, s.holders[i]? = some h ∧ h.inside = true ∧
      t = { s with
        table := s.table.post h.sock.statusSem
        holders := s.holders.set i { h with inside := false } } := by
  simp only [step] at hs
  split at hs
  · rename_i h hi
    split at hs
    · rename_i hin
      exact ⟨h, hi, hin, (Option.some.inj hs).symm⟩
    · cases hs
  · cases hs

theorem tryLock_inv {i : Nat} (hs : s.step (.tryLock i) = some t) :
    ∃ h, s.holders[i]? = some h ∧ h.inside = true ∧
      (t = s ∨ 0 < s.table.value h.sock.fdSem ∧
        t = { s with
          table := s.table.setValue h.sock.fdSem (s.table.value h.sock.fdSem - 1)
          holders := s.holders.set i (h.setLocked true) }) := by
  simp only [step] at hs
  split at hs
  · rename_i h hi
    split at hs
    · rename_i hin
      refine ⟨h, hi, hin, ?_⟩
      split at hs
      · rename_i table ht
        obtain ⟨hpos, rfl⟩ := SemTable.tryWait_eq_some.mp ht
        exact Or.inr ⟨hpos, (Option.some.inj hs).symm⟩
      · exact Or.inl (Option.some.inj hs).symm
    · cases hs
  · cases hs

theorem unlock_inv {i : Nat} (hs : s.step (.unlock i) = some t) :
    ∃ h, s.holders[i]? = some h ∧ h.sock.locked = true ∧
      t = { s with
        table := s.table.post h.sock.fdSem
        holders := s.holders.set i (h.setLocked false) } := by
  simp only [step] at hs
  split at hs
  · rename_i h hi
    split at hs
    · rename_i hl
      exact ⟨h, hi, hl, (Option.some.inj hs).symm⟩
    · cases hs
  · cases hs

/-- A first version gets two new objects, both free. -/
theorem bindFirstSems_eq (port : Nat) (table : SemTable String) (sock : DsuSocket) :
    let r := bindFirstSems port table sock
    r.1.allocated = table.allocated + 2 ∧
    r.2 = { sock with statusSem := table.allocated + 1, fdSem := table.allocated + 2 } ∧
    ∀ o, r.1.value o =
      if o = table.allocated + 1 ∨ o = table.allocated + 2 then 1 else table.value o := by
  simp only [bindFirstSems, SemTable.openExcl_unlink]
  refine ⟨rfl, rfl, fun o => ?_⟩
  simp only [SemTable.create, SemTable.setValue, SemTable.unlink, Function.update_apply]
  split <;> split <;> simp_all

/-! ### The property from the invariant -/

theorem two_le_countP {α : Type} {p : α → Bool} {l : List α} {i j : Nat} {x y : α} (hx : l[i]? = some x)
    (hy : l[j]? = some y) (hij : i < j) (px : p x = true) (py : p y = true) : 2 ≤ l.countP p := by
  induction l generalizing i j with
  | nil => simp at hx
  | cons a l ih =>
    cases j with
    | zero => omega
    | succ j =>
      simp only [List.getElem?_cons_succ] at hy
      cases i with
      | zero =>
        simp only [List.getElem?_cons_zero, Option.some.injEq] at hx
        subst hx
        have : 0 < l.countP p := List.countP_pos_iff.mpr ⟨y, List.mem_of_getElem? hy, py⟩
        simp only [List.countP_cons, px, ↓reduceIte]
        omega
      | succ i =>
        simp only [List.getElem?_cons_succ] at hx
        have := ih hx hy (by omega)
        simp only [List.countP_cons]
        omega

theorem Separate.semsShared (h : s.Separate) : s.SemsShared where
  same x hx x' hx' hl := ⟨(h.status x hx x' hx').mp hl, (h.fd x hx x' hx').mp hl⟩
  distinct x hx := h.apart x hx x hx
  exclusive i j x x' hi hj hl hin hin' := by
    have hx := List.mem_of_getElem? hi
    have hs := (h.status x hx x' (List.mem_of_getElem? hj)).mp hl
    have hm := h.mutex x hx
    have px : (x.inside && x.sock.statusSem == x.sock.statusSem) = true := by simp [hin]
    have px' : (x'.inside && x'.sock.statusSem == x.sock.statusSem) = true := by simp [hin', hs]
    by_contra hne
    rcases Nat.lt_or_gt_of_ne hne with hlt | hgt
    · have := two_le_countP (p := fun h => h.inside && h.sock.statusSem == x.sock.statusSem) hi hj hlt px px'
      simp only [insideOn] at hm
      omega
    · have := two_le_countP (p := fun h => h.inside && h.sock.statusSem == x.sock.statusSem) hj hi hgt px' px
      simp only [insideOn] at hm
      omega
  lockable x hx _ hnone := by
    have hzero : lockedOn s.holders x.sock.fdSem = 0 := by
      unfold lockedOn
      rw [List.countP_eq_zero]
      intro x' hx' hp
      simp only [Bool.and_eq_true, beq_iff_eq] at hp
      have := hnone x' hx' ((h.fd x' hx' x hx).mpr hp.2)
      rw [this] at hp
      cases hp.1
    have := h.free x hx
    have hpos : 0 < s.table.value x.sock.fdSem := by omega
    simp [SemTable.tryWait, hpos]

/-! ### Steps that do not inherit -/

/-- A holder with two objects of its own, which nobody waits on, joins the others. -/
theorem Separate.join {x : Holder} {table : SemTable String} (h : s.Separate)
    (hall : table.allocated = s.table.allocated + 2) (hl : x.lineage = s.lineages)
    (hss : x.sock.statusSem = s.table.allocated + 1) (hfs : x.sock.fdSem = s.table.allocated + 2)
    (hin : x.inside = false) (hlock : x.sock.locked = false)
    (hold : ∀ o ≤ s.table.allocated, table.value o = s.table.value o)
    (hstatus : table.value (s.table.allocated + 1) = 1) (hfd : table.value (s.table.allocated + 2) = 1) :
    ({ s with table := table, holders := s.holders ++ [x], lineages := s.lineages + 1 } : SemState).Separate := by
  have inside_eq : ∀ o, insideOn (s.holders ++ [x]) o = insideOn s.holders o := by simp [insideOn, hin]
  have locked_eq : ∀ o, lockedOn (s.holders ++ [x]) o = lockedOn s.holders o := by simp [lockedOn, hlock]
  -- Nobody is inside a section under an object that was not made yet.
  have outside : insideOn s.holders (s.table.allocated + 1) = 0 := by
    unfold insideOn
    rw [List.countP_eq_zero]
    intro y hy hp
    have := (h.made y hy).1
    simp only [Bool.and_eq_true, beq_iff_eq] at hp
    omega
  have mem : ∀ y ∈ s.holders ++ [x], y ∈ s.holders ∨ y = x := by simp
  have older : ∀ y ∈ s.holders, y.sock.statusSem ≤ s.table.allocated ∧ y.sock.fdSem ≤ s.table.allocated ∧
      y.lineage < s.lineages := fun y hy => ⟨(h.made y hy).1, (h.made y hy).2, h.lineage y hy⟩
  refine { made := ?_, lineage := ?_, apart := ?_, status := ?_, fd := ?_, mutex := ?_, free := ?_ }
  · intro y hy
    simp only [hall]
    rcases mem y hy with hy | rfl
    · have := older y hy
      omega
    · omega
  · intro y hy
    rcases mem y hy with hy | rfl
    · exact Nat.lt_succ_of_lt (h.lineage y hy)
    · exact hl ▸ Nat.lt_succ_self _
  · intro y hm y' hm'
    rcases mem y hm with hy | rfl <;> rcases mem y' hm' with hy' | rfl
    · exact h.apart y hy y' hy'
    · have := older y hy
      omega
    · have := older y' hy'
      omega
    · omega
  · intro y hm y' hm'
    rcases mem y hm with hy | rfl <;> rcases mem y' hm' with hy' | rfl
    · exact h.status y hy y' hy'
    · have := older y hy
      omega
    · have := older y' hy'
      omega
    · simp
  · intro y hm y' hm'
    rcases mem y hm with hy | rfl <;> rcases mem y' hm' with hy' | rfl
    · exact h.fd y hy y' hy'
    · have := older y hy
      omega
    · have := older y' hy'
      omega
    · simp
  · intro y hy
    simp only [inside_eq]
    rcases mem y hy with hy | rfl
    · rw [hold _ (h.made y hy).1]
      exact h.mutex y hy
    · rw [hss, hstatus, outside]
  · intro y hy
    simp only [locked_eq]
    rcases mem y hy with hy | rfl
    · rw [hold _ (h.made y hy).2]
      exact h.free y hy
    · rw [hfs, hfd]
      exact Nat.le_add_right 1 _

theorem separate_bindFirst (h : s.Separate) (hs : s.step .bindFirst = some t) : t.Separate := by
  obtain ⟨hall, hsock, hval⟩ := bindFirstSems_eq s.port s.table { dsuSocketListInit with port := s.port }
  rw [bindFirst_inv hs]
  refine h.join hall rfl ?_ ?_ rfl ?_ (fun o ho => ?_) ?_ ?_
  · rw [hsock]
  · rw [hsock]
  · rw [hsock]
    rfl
  · rw [hval, if_neg (by omega)]
  · rw [hval, if_pos (Or.inl rfl)]
  · rw [hval, if_pos (Or.inr rfl)]

theorem separate_fork {i : Nat} (h : s.Separate) (hs : s.step (.fork i) = some t) : t.Separate := by
  obtain ⟨x₀, hx₀, hout, rfl⟩ := fork_inv hs
  have mem : ∀ x ∈ s.holders ++ [x₀], x ∈ s.holders := by
    intro x hx
    rcases List.mem_append.mp hx with hx | hx
    · exact hx
    · rw [List.mem_singleton.mp hx]
      exact hx₀
  exact {
    made := fun x hx => h.made x (mem x hx)
    lineage := fun x hx => h.lineage x (mem x hx)
    apart := fun x hx x' hx' => h.apart x (mem x hx) x' (mem x' hx')
    status := fun x hx x' hx' => h.status x (mem x hx) x' (mem x' hx')
    fd := fun x hx x' hx' => h.fd x (mem x hx) x' (mem x' hx')
    mutex := fun x hx => by simpa [insideOn, hout] using h.mutex x (mem x hx)
    free := fun x hx => by
      have := h.free x (mem x hx)
      simp only [lockedOn, List.countP_append] at this ⊢
      omega }

@[simp] theorem setLocked_locked (x : Holder) (locked : Bool) : (x.setLocked locked).sock.locked = locked := rfl
@[simp] theorem setLocked_fdSem (x : Holder) (locked : Bool) :
    (x.setLocked locked).sock.fdSem = x.sock.fdSem := rfl

theorem insideOn_set {l : List Holder} {i : Nat} {x : Holder} (hx : l[i]? = some x) (x' : Holder) (o : Nat) :
    insideOn (l.set i x') o + (if x.inside ∧ x.sock.statusSem = o then 1 else 0) =
      insideOn l o + (if x'.inside ∧ x'.sock.statusSem = o then 1 else 0) := by
  simpa [insideOn] using countP_set_add (p := fun h => h.inside && h.sock.statusSem == o) hx x'

theorem lockedOn_set {l : List Holder} {i : Nat} {x : Holder} (hx : l[i]? = some x) (x' : Holder) (o : Nat) :
    lockedOn (l.set i x') o + (if x.sock.locked ∧ x.sock.fdSem = o then 1 else 0) =
      lockedOn l o + (if x'.sock.locked ∧ x'.sock.fdSem = o then 1 else 0) := by
  simpa [lockedOn] using countP_set_add (p := fun h => h.sock.locked && h.sock.fdSem == o) hx x'

theorem insideOn_set_of_eq {l : List Holder} {i : Nat} {x : Holder} (hx : l[i]? = some x)
    (x' : Holder) (hin : x'.inside = x.inside) (hss : x'.sock.statusSem = x.sock.statusSem) (o : Nat) :
    insideOn (l.set i x') o = insideOn l o := by
  have := insideOn_set hx x' o
  rw [hin, hss] at this
  omega

theorem lockedOn_set_of_eq {l : List Holder} {i : Nat} {x : Holder} (hx : l[i]? = some x)
    (x' : Holder) (hlock : x'.sock.locked = x.sock.locked) (hfs : x'.sock.fdSem = x.sock.fdSem) (o : Nat) :
    lockedOn (l.set i x') o = lockedOn l o := by
  have := lockedOn_set hx x' o
  rw [hlock, hfs] at this
  omega

/-- A step that stores a holder with the same lineage and semaphores, and accounts for the values. -/
theorem Separate.set {i : Nat} {x x' : Holder} {table : SemTable String} (h : s.Separate)
    (hx : s.holders[i]? = some x) (hl : x'.lineage = x.lineage) (hss : x'.sock.statusSem = x.sock.statusSem)
    (hfs : x'.sock.fdSem = x.sock.fdSem) (hall : table.allocated = s.table.allocated)
    (hmutex : ∀ y ∈ s.holders, table.value y.sock.statusSem + insideOn (s.holders.set i x') y.sock.statusSem = 1)
    (hfree : ∀ y ∈ s.holders, 1 ≤ table.value y.sock.fdSem + lockedOn (s.holders.set i x') y.sock.fdSem) :
    ({ s with table := table, holders := s.holders.set i x' } : SemState).Separate := by
  -- Every stored holder looks like an old one in lineage and semaphores.
  have old : ∀ y ∈ s.holders.set i x', ∃ z ∈ s.holders, y.lineage = z.lineage ∧
      y.sock.statusSem = z.sock.statusSem ∧ y.sock.fdSem = z.sock.fdSem := by
    intro y hy
    rcases mem_set_cases hx hy with rfl | hy
    · exact ⟨x, List.mem_of_getElem? hx, hl, hss, hfs⟩
    · exact ⟨y, hy, rfl, rfl, rfl⟩
  exact {
    made := fun y hy => by
      obtain ⟨z, hz, -, h1, h2⟩ := old y hy
      simp only [h1, h2, hall]
      exact h.made z hz
    lineage := fun y hy => by
      obtain ⟨z, hz, h0, -, -⟩ := old y hy
      rw [h0]
      exact h.lineage z hz
    apart := fun y hy y' hy' => by
      obtain ⟨z, hz, -, h1, -⟩ := old y hy
      obtain ⟨z', hz', -, -, h2⟩ := old y' hy'
      rw [h1, h2]
      exact h.apart z hz z' hz'
    status := fun y hy y' hy' => by
      obtain ⟨z, hz, h0, h1, -⟩ := old y hy
      obtain ⟨z', hz', h0', h1', -⟩ := old y' hy'
      rw [h0, h1, h0', h1']
      exact h.status z hz z' hz'
    fd := fun y hy y' hy' => by
      obtain ⟨z, hz, h0, -, h1⟩ := old y hy
      obtain ⟨z', hz', h0', -, h1'⟩ := old y' hy'
      rw [h0, h1, h0', h1']
      exact h.fd z hz z' hz'
    mutex := fun y hy => by
      obtain ⟨z, hz, -, h1, -⟩ := old y hy
      rw [h1]
      exact hmutex z hz
    free := fun y hy => by
      obtain ⟨z, hz, -, -, h1⟩ := old y hy
      rw [h1]
      exact hfree z hz }

theorem separate_enter {i : Nat} (h : s.Separate) (hs : s.step (.enter i) = some t) : t.Separate := by
  obtain ⟨x, hx, hout, hpos, rfl⟩ := enter_inv hs
  refine h.set hx rfl rfl rfl rfl (fun y hy => ?_) (fun y hy => ?_)
  · have hc := insideOn_set hx { x with inside := true } y.sock.statusSem
    have hm := h.mutex y hy
    rw [if_neg (by simp [hout])] at hc
    by_cases he : y.sock.statusSem = x.sock.statusSem
    · rw [if_pos ⟨rfl, he.symm⟩] at hc
      rw [SemTable.setValue_value, if_pos he]
      rw [he] at hc hm ⊢
      omega
    · rw [if_neg fun hp => he hp.2.symm] at hc
      rw [SemTable.setValue_value, if_neg he]
      omega
  · rw [SemTable.setValue_value, if_neg (h.apart x (List.mem_of_getElem? hx) y hy).symm,
      lockedOn_set_of_eq hx { x with inside := true } rfl rfl]
    exact h.free y hy

theorem separate_leave {i : Nat} (h : s.Separate) (hs : s.step (.leave i) = some t) : t.Separate := by
  obtain ⟨x, hx, hin, rfl⟩ := leave_inv hs
  refine h.set hx rfl rfl rfl rfl (fun y hy => ?_) (fun y hy => ?_)
  · have hc := insideOn_set hx { x with inside := false } y.sock.statusSem
    have hm := h.mutex y hy
    rw [if_neg (c := false = true ∧ _) (by simp)] at hc
    by_cases he : y.sock.statusSem = x.sock.statusSem
    · rw [if_pos ⟨hin, he.symm⟩] at hc
      rw [SemTable.post_value, if_pos he]
      rw [he] at hc hm ⊢
      omega
    · rw [if_neg fun hp => he hp.2.symm] at hc
      rw [SemTable.post_value, if_neg he]
      omega
  · rw [SemTable.post_value, if_neg (h.apart x (List.mem_of_getElem? hx) y hy).symm,
      lockedOn_set_of_eq hx { x with inside := false } rfl rfl]
    exact h.free y hy

/-- Taking or giving back a descriptor lock leaves the status semaphores alone. -/
theorem mutex_of_fdSem {i : Nat} {x : Holder} {table : SemTable String} (locked : Bool) (h : s.Separate)
    (hx : s.holders[i]? = some x) (hval : ∀ o, o ≠ x.sock.fdSem → table.value o = s.table.value o)
    {y : Holder} (hy : y ∈ s.holders) :
    table.value y.sock.statusSem +
      insideOn (s.holders.set i (x.setLocked locked)) y.sock.statusSem = 1 := by
  rw [hval _ (h.apart y hy x (List.mem_of_getElem? hx)),
    insideOn_set_of_eq hx (x.setLocked locked) rfl rfl]
  exact h.mutex y hy

theorem separate_tryLock {i : Nat} (h : s.Separate) (hs : s.step (.tryLock i) = some t) : t.Separate := by
  obtain ⟨x, hx, -, rfl | ⟨hpos, rfl⟩⟩ := tryLock_inv hs
  · exact h
  · refine h.set hx rfl rfl rfl rfl (fun y hy => mutex_of_fdSem true h hx (fun o ho => ?_) hy) (fun y hy => ?_)
    · rw [SemTable.setValue_value, if_neg ho]
    · by_cases he : y.sock.fdSem = x.sock.fdSem
      · -- The record holds the lock now, whoever else may be counted.
        have : 0 < lockedOn (s.holders.set i (x.setLocked true)) y.sock.fdSem :=
          List.countP_pos_iff.mpr ⟨x.setLocked true, mem_set_self hx, by simp [he]⟩
        omega
      · have hc := lockedOn_set hx (x.setLocked true) y.sock.fdSem
        have hf := h.free y hy
        rw [if_neg fun hp => he hp.2.symm, if_neg fun hp => he hp.2.symm] at hc
        rw [SemTable.setValue_value, if_neg he]
        omega

theorem separate_unlock {i : Nat} (h : s.Separate) (hs : s.step (.unlock i) = some t) : t.Separate := by
  obtain ⟨x, hx, hlocked, rfl⟩ := unlock_inv hs
  refine h.set hx rfl rfl rfl rfl (fun y hy => mutex_of_fdSem false h hx (fun o ho => ?_) hy) (fun y hy => ?_)
  · rw [SemTable.post_value, if_neg ho]
  · have hc := lockedOn_set hx (x.setLocked false) y.sock.fdSem
    have hf := h.free y hy
    rw [SemTable.post_value]
    by_cases he : y.sock.fdSem = x.sock.fdSem
    · rw [if_pos he]
      omega
    · rw [if_neg fun hp => he hp.2.symm] at hc
      rw [if_neg he]
      omega

theorem step_separate {a : SemAct} (h : s.Separate) (ha : s.NoInherit a) (hs : s.step a = some t) :
    t.Separate := by
  cases a with
  | bindFirst => exact separate_bindFirst h hs
  | bindInherit i => exact absurd ha id
  | fork i => exact separate_fork h hs
  | enter i => exact separate_enter h hs
  | leave i => exact separate_leave h hs
  | tryLock i => exact separate_tryLock h hs
  | unlock i => exact separate_unlock h hs

/-- A bind that inherits opens one name twice: its two semaphores are one object. -/
theorem bindInheritSems_eq (port : Nat) (table : SemTable String) (sock : DsuSocket) :
    (bindInheritSems port table sock).2.statusSem = (bindInheritSems port table sock).2.fdSem := by
  simp only [bindInheritSems, ← pathnames_eq, SemTable.openCreate_openCreate]

theorem noInherit_of_semsShared {a : SemAct} (hs : s.step a = some t) (ht : t.SemsShared) : s.NoInherit a := by
  cases a with
  | bindInherit i =>
    obtain ⟨h, -, table, sock, hsems, rfl⟩ := bindInherit_inv hs
    have hsame := bindInheritSems_eq s.port s.table { dsuSocketListInit with port := s.port }
    rw [hsems] at hsame
    exact ht.distinct { lineage := h.lineage, sock := sock, inside := false } (by simp) hsame
  | _ => trivial

theorem separate_start (port : Nat) (table : SemTable String) : (start port table).Separate := by
  constructor <;> simp [start]

/-- From any table of semaphores, a run on a port keeps the semaphores shared and apart in every state it
    reaches if and only if none of its binds inherits. -/
theorem semsShared_throughout_iff (port : Nat) (table : SemTable String) (as : List SemAct) :
    semMachine.Throughout SemsShared (start port table) as ↔ semMachine.Steps NoInherit (start port table) as :=
  Machine.throughout_iff_steps (I := Separate) (fun _ => Separate.semsShared)
    (fun _ _ _ hi ha hs => step_separate hi ha hs) (fun _ _ _ _ hs ht => noInherit_of_semsShared hs ht) as
    (separate_start port table)

/-- After one update of the port 8080 the first version waits on the objects 1 and 2, the version that
    inherited from it on object 2 for both: in its sections the descriptor lock can never be had. -/
theorem semaphores_collide : ∃ t, semMachine.run (start 8080 ⟨fun _ => none, fun _ => 0, 0⟩)
      [.bindFirst, .bindInherit 0, .enter 1] = some t ∧
    t.holders.map (fun h => (h.lineage, h.sock.statusSem, h.sock.fdSem, h.sock.locked)) =
      [(0, 1, 2, false), (0, 2, 2, false)] ∧
    (∀ h ∈ t.holders, h.inside = true → (t.table.tryWait h.sock.fdSem).isNone) ∧ ¬t.SemsShared := by
  refine ⟨_, rfl, by decide, by decide, fun h => ?_⟩
  exact h.distinct _ (List.mem_of_getElem? (i := 1) rfl) (by decide)

end SemState
end OpenDSU
