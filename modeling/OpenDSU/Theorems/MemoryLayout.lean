import OpenDSU.Memory
import OpenDSU.Theorems.Calls

/-! The lists of records in memory, and what each operation of `state.c` does to them. -/

namespace OpenDSU
open Heap

/-- A record in memory: its address and node, and the nodes of its two lists. -/
structure Laid where
  addr : Nat
  node : SocketNode
  fds : List (Nat × Int)
  comfds : List (Nat × Int)

namespace Laid

def sock (r : Laid) : DsuSocket := r.node.record (r.fds.map Prod.snd) (r.comfds.map Prod.snd)

def cell (r : Laid) : Nat × SocketNode := (r.addr, r.node)

def lists (r : Laid) : List (Nat × List (Nat × Int)) := [(r.node.fds, r.fds), (r.node.comfds, r.comfds)]

/-- The addresses of the nodes of its lists. -/
def nodes (r : Laid) : List Nat := r.comfds.map Prod.fst ++ r.fds.map Prod.fst

theorem length_nodes (r : Laid) : r.nodes.length = r.sock.fds.length + r.sock.comfds.length := by
  simp [nodes, sock, SocketNode.record, Nat.add_comm]

def list (r : Laid) : FdFlag → List (Nat × Int)
  | .internal => r.comfds
  | _ => r.fds

/-- The record with another list, which begins at `p`. -/
def setList (r : Laid) (p : Nat) (l : List (Nat × Int)) : FdFlag → Laid
  | .internal => { r with node := r.node.setFdHead p .internal, comfds := l }
  | flag => { r with node := r.node.setFdHead p flag, fds := l }

/-- A record without connections. -/
def bare (a : Nat) (x : SocketNode) : Laid where
  addr := a
  node := x
  fds := []
  comfds := []

/-- The record with other fields. -/
def put (r : Laid) (s : DsuSocket) : Laid := { r with node := r.node.put s }

end Laid

def ListVar.other : ListVar → ListVar
  | .sockets => .binds
  | .binds => .sockets

/-- The records behind each of the two variables. -/
abbrev Layout := ListVar → List Laid

def Layout.all (L : Layout) : List Laid := L .sockets ++ L .binds

/-- The nodes in memory are those of the records, and the nodes `lost` of descriptors that no record reaches. -/
structure Memory.Represents (m : Memory) (L : Layout) (lost : List Nat) : Prop where
  nodes : Made m.nodes [(m.sockets, (L .sockets).map Laid.cell), (m.binds, (L .binds).map Laid.cell)] []
  fdNodes : Made m.fdNodes (L.all.flatMap Laid.lists) lost
  pos : 0 < m.top
  top : ∀ a, (m.nodes a).isSome = true ∨ (m.fdNodes a).isSome = true → a < m.top

section Represents
variable {m : Memory} {L : Layout} {lost : List Nat} {v : ListVar} {r : Laid} {pre post : List Laid}

theorem Layout.all_perm (L : Layout) (v : ListVar) : L.all.Perm (L v ++ L v.other) := by
  cases v with
  | sockets => exact .refl _
  | binds => exact List.perm_append_comm

namespace Memory

theorem represents_start : start.Represents (fun _ => []) [] where
  nodes := made_nil.mpr (made_nil.mpr made_empty)
  fdNodes := made_empty
  pos := Nat.one_pos
  top a h := by simp [start] at h

namespace Represents

theorem made (h : m.Represents L lost) (v : ListVar) :
    Made m.nodes [((m.list v).head, (L v).map Laid.cell), ((m.list v.other).head, (L v.other).map Laid.cell)] [] := by
  cases v with
  | sockets => exact h.nodes
  | binds => exact h.nodes.perm (.swap _ _ [])

theorem made_fds (h : m.Represents L lost) (v : ListVar) :
    Made m.fdNodes ((L v ++ L v.other).flatMap Laid.lists) lost :=
  h.fdNodes.perm ((L.all_perm v).flatMap_right _)

/-- A memory that differs in the records behind one variable. -/
theorem of_made {m' : Memory} {l : List Laid} (v : ListVar)
    (hnodes : Made m'.nodes [((m'.list v).head, l.map Laid.cell), ((m'.list v.other).head, (L v.other).map Laid.cell)] [])
    (hfds : Made m'.fdNodes ((l ++ L v.other).flatMap Laid.lists) lost) (hpos : 0 < m'.top)
    (htop : ∀ a, (m'.nodes a).isSome = true ∨ (m'.fdNodes a).isSome = true → a < m'.top) :
    m'.Represents (Function.update L v l) lost := by
  cases v with
  | sockets => exact ⟨hnodes, hfds, hpos, htop⟩
  | binds =>
    refine ⟨hnodes.perm (.swap _ _ []), hfds.perm (List.Perm.flatMap_right _ ?_), hpos, htop⟩
    exact List.perm_append_comm

theorem length_lt (h : m.Represents L lost) (v : ListVar) : (L v).length < m.top := by
  have := (h.made v).length_lt h.pos fun a ha => h.top a (Or.inl ha)
  rwa [List.length_map] at this

/-- A record that a variable leads to can be read. -/
theorem read (h : m.Represents L lost) (hL : L v = pre ++ r :: post) :
    r.addr ≠ 0 ∧ ∃ n, m.nodes r.addr = some { val := r.node, next := n } := by
  have hmade := h.made v
  rw [hL, List.map_append, List.map_cons] at hmade
  exact hmade.read

/-- A list of a record, among all others. -/
theorem made_list (h : m.Represents L lost) (hL : L v = pre ++ r :: post) (flag : FdFlag) :
    ∃ rest, Made m.fdNodes ((r.node.fdHead flag, r.list flag) :: rest) lost ∧
      ∀ {p : Nat} {l : List (Nat × Int)} {h' : Heap Int}, Made h' ((p, l) :: rest) lost →
        Made h' ((pre ++ r.setList p l flag :: post ++ L v.other).flatMap Laid.lists) lost := by
  have hfds := h.made_fds v
  have hsplit : ∀ x : Laid, (pre ++ x :: post ++ L v.other).flatMap Laid.lists =
      pre.flatMap Laid.lists ++ (x.node.fds, x.fds) ::
        (x.node.comfds, x.comfds) :: (post ++ L v.other).flatMap Laid.lists := by
    intro x
    simp [Laid.lists]
  rw [hL, hsplit] at hfds
  cases flag with
  | internal =>
    have hfront : ∀ (x y : Nat × List (Nat × Int)) (M : List (Nat × List (Nat × Int))),
        pre.flatMap Laid.lists ++ x :: y :: M = (pre.flatMap Laid.lists ++ [x]) ++ y :: M := fun x y M => by simp
    rw [hfront] at hfds
    refine ⟨pre.flatMap Laid.lists ++ [(r.node.fds, r.fds)] ++ (post ++ L v.other).flatMap Laid.lists,
      made_middle.mp hfds, fun hm => ?_⟩
    rw [hsplit, hfront]
    exact made_middle.mpr hm
  | nonInternal | monitor =>
    refine ⟨pre.flatMap Laid.lists ++ ((r.node.comfds, r.comfds) :: (post ++ L v.other).flatMap Laid.lists), ?_,
      fun hm => ?_⟩
    · exact made_middle.mp hfds
    · rw [hsplit]
      exact made_middle.mpr hm

/-- A write to the node of a record. -/
theorem set (h : m.Represents L lost) (hL : L v = pre ++ r :: post) {n : Nat}
    (hr : m.nodes r.addr = some { val := r.node, next := n }) (x : SocketNode) :
    Made (Function.update m.nodes r.addr (some { val := x, next := n }))
      [((m.list v).head, pre.map Laid.cell ++ (r.addr, x) :: post.map Laid.cell),
        ((m.list v.other).head, (L v.other).map Laid.cell)] [] := by
  have hmade := h.made v
  rw [hL, List.map_append, List.map_cons] at hmade
  exact hmade.set hr x

end Represents

/-! ### Allocation -/

theorem malloc_spec (pick : Memory → Nat) (h : m.Represents L lost) :
    (m.malloc pick).1 ≠ 0 ∧ m.nodes (m.malloc pick).1 = none ∧ m.fdNodes (m.malloc pick).1 = none ∧
      (m.malloc pick).1 < (m.malloc pick).2.top ∧ (m.malloc pick).2.Represents L lost := by
  have hfree : (m.malloc pick).1 ≠ 0 ∧ m.nodes (m.malloc pick).1 = none ∧ m.fdNodes (m.malloc pick).1 = none := by
    unfold malloc
    simp only
    split
    · assumption
    · have htop : ¬((m.nodes m.top).isSome = true ∨ (m.fdNodes m.top).isSome = true) :=
        fun hlive => Nat.lt_irrefl _ (h.top m.top hlive)
      exact ⟨Nat.ne_of_gt h.pos, by simpa using htop⟩
  refine ⟨hfree.1, hfree.2.1, hfree.2.2, ?_, h.nodes, h.fdNodes, ?_, fun a ha => ?_⟩
  · exact Nat.lt_of_lt_of_le (Nat.lt_succ_self _) (Nat.le_max_right _ _)
  · exact Nat.lt_of_lt_of_le h.pos (Nat.le_max_left _ _)
  · exact Nat.lt_of_lt_of_le (h.top a ha) (Nat.le_max_left _ _)

/-! ### Lists of records -/

@[simp] theorem store_nodes (s : Linked SocketNode) : (m.store s v).nodes = s.heap := by cases v <;> rfl

@[simp] theorem store_fdNodes (s : Linked SocketNode) : (m.store s v).fdNodes = m.fdNodes := by cases v <;> rfl

@[simp] theorem store_top (s : Linked SocketNode) : (m.store s v).top = m.top := by cases v <;> rfl

@[simp] theorem list_store (s : Linked SocketNode) : (m.store s v).list v = s := by cases v <;> rfl

@[simp] theorem list_store_other (s : Linked SocketNode) :
    ((m.store s v).list v.other).head = (m.list v.other).head := by cases v <;> rfl

@[simp] theorem list_heap : (m.list v).heap = m.nodes := by cases v <;> rfl

theorem list_eq : m.list v = { head := (m.list v).head, heap := m.nodes } := by cases v <;> rfl

@[simp] theorem malloc_nodes (pick : Memory → Nat) : (m.malloc pick).2.nodes = m.nodes := rfl

@[simp] theorem malloc_fdNodes (pick : Memory → Nat) : (m.malloc pick).2.fdNodes = m.fdNodes := rfl

@[simp] theorem malloc_list (pick : Memory → Nat) : (m.malloc pick).2.list v = m.list v := by cases v <;> rfl

/-- A new node comes to the end of its list, whatever it points to. -/
theorem add_nodes (pick : Memory → Nat) (h : m.Represents L lost) (v : ListVar) (x : SocketNode) :
    ∃ m' a, m.dsuSocketsAdd pick v x = some m' ∧
      Made m'.nodes [((m'.list v).head, (L v).map Laid.cell ++ [(a, x)]),
        ((m'.list v.other).head, (L v.other).map Laid.cell)] [] ∧
      m'.fdNodes = m.fdNodes ∧ 0 < m'.top ∧
      ∀ a, (m'.nodes a).isSome = true ∨ (m'.fdNodes a).isSome = true → a < m'.top := by
  obtain ⟨ha, hnode, -, hlt, h'⟩ := malloc_spec pick h
  obtain ⟨s', hs', hmade, hlive⟩ := (h'.made v).append (x := x) (by simpa using h'.length_lt v) ha hnode
  have hs : ((m.malloc pick).2.list v).append (m.malloc pick).2.top (m.malloc pick).1 x = some s' := by
    rw [list_eq]
    exact hs'
  refine ⟨(m.malloc pick).2.store s' v, (m.malloc pick).1, ?_, by simpa using hmade, by simp, by simpa using h'.pos,
    fun a ha => ?_⟩
  · unfold dsuSocketsAdd
    simp only
    rw [hs]
    rfl
  · rw [store_nodes, store_fdNodes] at ha
    rw [store_top]
    rcases ha with ha | ha
    · rcases hlive a ha with ha | rfl
      · exact h'.top a (Or.inl ha)
      · exact hlt
    · exact h'.top a (Or.inr ha)

theorem add_spec (pick : Memory → Nat) (h : m.Represents L lost) (v : ListVar) {x : SocketNode} (hfds : x.fds = 0)
    (hcomfds : x.comfds = 0) :
    ∃ m' a, m.dsuSocketsAdd pick v x = some m' ∧
      m'.Represents (Function.update L v (L v ++ [.bare a x])) lost := by
  obtain ⟨m', a, hadd, hnodes, hsame, hpos, htop⟩ := add_nodes pick h v x
  refine ⟨m', a, hadd, .of_made v (by simpa [Laid.cell, Laid.bare] using hnodes) ?_ hpos htop⟩
  have hlists : ∀ l, (L v ++ [Laid.bare a x] ++ l).flatMap Laid.lists =
      (L v).flatMap Laid.lists ++ (0, []) :: (0, []) :: l.flatMap Laid.lists := by
    intro l
    simp [Laid.lists, Laid.bare, hfds, hcomfds]
  rw [hlists, hsame]
  refine made_middle.mpr (made_nil.mpr (made_middle.mpr (made_nil.mpr ?_)))
  rw [← List.flatMap_append]
  exact h.made_fds v

/-- The nodes of the two lists after the first node of the descriptor is freed. -/
theorem remove_nodes {cells cells' : List (Nat × SocketNode)} (sockfd : Int)
    (h : Made m.nodes [((m.list v).head, cells), ((m.list v.other).head, cells')] []) (hpos : 0 < m.top)
    (htop : ∀ a, (m.nodes a).isSome = true ∨ (m.fdNodes a).isSome = true → a < m.top) :
    ∃ m', m.dsuSocketsRemoveFd v sockfd = some m' ∧
      Made m'.nodes [((m'.list v).head, cells.eraseP fun c => c.2.fd == sockfd), ((m'.list v.other).head, cells')] [] ∧
      m'.fdNodes = m.fdNodes ∧ 0 < m'.top ∧
      ∀ a, (m'.nodes a).isSome = true ∨ (m'.fdNodes a).isSome = true → a < m'.top := by
  obtain ⟨s', hs', hmade, hlive⟩ :=
    h.remove (h.length_lt hpos fun a ha => htop a (Or.inl ha)) fun x : SocketNode => x.fd == sockfd
  have hs : (m.list v).remove (·.fd == sockfd) m.top = some s' := by
    rw [list_eq]
    exact hs'
  refine ⟨m.store s' v, ?_, by simpa using hmade, by simp, by simpa using hpos, fun a ha => ?_⟩
  · unfold dsuSocketsRemoveFd
    rw [hs]
    rfl
  · rw [store_nodes, store_fdNodes] at ha
    rw [store_top]
    exact htop a (ha.imp_left (hlive a))

/-- The first record of the descriptor is gone, and the nodes of its lists are lost. -/
theorem removeFd_spec (h : m.Represents L lost) (v : ListVar) (sockfd : Int) :
    ∃ m', m.dsuSocketsRemoveFd v sockfd = some m' ∧
      m'.Represents (Function.update L v ((L v).eraseP (·.node.fd == sockfd)))
        ((((L v).find? (·.node.fd == sockfd)).map Laid.nodes).getD [] ++ lost) := by
  obtain ⟨m', hm', hnodes, hsame, hpos, htop⟩ := remove_nodes sockfd (h.made v) h.pos h.top
  refine ⟨m', hm', .of_made v ?_ ?_ hpos htop⟩
  · rwa [List.eraseP_map] at hnodes
  · have hfds := h.made_fds v
    rw [hsame]
    cases hfind : (L v).find? (·.node.fd == sockfd) with
    | none =>
      have herase : (L v).eraseP (·.node.fd == sockfd) = L v :=
        List.eraseP_of_forall_not (by simpa using hfind)
      rw [herase]
      exact hfds
    | some r =>
      obtain ⟨hr, pre, post, hL, hpre⟩ := List.find?_eq_some_iff_append.mp hfind
      have herase : (L v).eraseP (·.node.fd == sockfd) = pre ++ post := by
        rw [hL, List.eraseP_append_right _ fun x hx => by simpa using hpre x hx]
        simp [hr]
      have hsplit : (L v ++ L v.other).flatMap Laid.lists =
          pre.flatMap Laid.lists ++ (r.node.fds, r.fds) :: (r.node.comfds, r.comfds) ::
            (post ++ L v.other).flatMap Laid.lists := by
        rw [hL]
        simp [Laid.lists]
      rw [hsplit] at hfds
      have hlose := (made_middle.mp (made_middle.mp hfds).lose).lose
      rw [herase, List.append_assoc, List.flatMap_append]
      simpa [Laid.nodes] using hlose

theorem other_other (v : ListVar) : v.other.other = v := by cases v <;> rfl

/-- The record comes to the end of the other list with its lists, under another address. -/
theorem transfer_spec (pick : Memory → Nat) (h : m.Represents L lost) (hL : L v = pre ++ r :: post)
    (hpre : ∀ x ∈ pre, x.node.fd ≠ r.node.fd) :
    ∃ m' a, m.dsuSocketsTransferFd pick v.other v r.addr = some m' ∧
      m'.Represents (Function.update (Function.update L v.other (L v.other ++ [{ r with addr := a }])) v (pre ++ post))
        lost := by
  obtain ⟨-, n, hr⟩ := h.read hL
  obtain ⟨m₁, a, hadd, hnodes, hsame, hpos, htop⟩ := add_nodes pick h v.other r.node
  rw [other_other] at hnodes
  have hnodes : Made m₁.nodes [((m₁.list v).head, (L v).map Laid.cell),
      ((m₁.list v.other).head, (L v.other).map Laid.cell ++ [(a, r.node)])] [] := hnodes.perm (.swap _ _ [])
  obtain ⟨n', hr₁⟩ : ∃ n, m₁.nodes r.addr = some { val := r.node, next := n } := by
    have hmade := hnodes
    rw [hL, List.map_append, List.map_cons] at hmade
    exact hmade.read.2
  obtain ⟨m', hm', hnodes', hsame', hpos', htop'⟩ := remove_nodes r.node.fd hnodes hpos htop
  have herase : (L v).eraseP (·.node.fd == r.node.fd) = pre ++ post := by
    rw [hL, List.eraseP_append_right _ fun x hx => by simpa using hpre x hx]
    simp
  refine ⟨m', a, ?_, .of_made v ?_ ?_ hpos' htop'⟩
  · simp [dsuSocketsTransferFd, hr, hadd, hr₁, hm']
  · rw [List.eraseP_map] at hnodes'
    rw [← herase]
    cases v <;> simpa [Laid.cell, ListVar.other, Function.comp_def] using hnodes'
  · have hfds := h.made_fds v
    have hother : Function.update L v.other (L v.other ++ [{ r with addr := a }]) v.other =
        L v.other ++ [{ r with addr := a }] :=
      Function.update_self ..
    rw [hsame', hsame, hother]
    have hlists : (pre ++ post ++ (L v.other ++ [{ r with addr := a }])).flatMap Laid.lists =
        (pre ++ post ++ (L v.other ++ [r])).flatMap Laid.lists := by
      simp [Laid.lists]
    rw [hlists]
    refine hfds.perm (List.Perm.flatMap_right _ ?_)
    rw [hL, ← List.append_assoc, List.append_assoc, List.cons_append]
    exact List.perm_middle.trans (by simpa using (List.perm_append_singleton r (pre ++ (post ++ L v.other))).symm)

/-! ### Lists of descriptors -/

theorem isSome_update {α : Type} {f : Nat → Option α} {a : Nat} {x y : α} (h : f a = some x) (b : Nat) :
    (Function.update f a (some y) b).isSome = true ↔ (f b).isSome = true := by
  by_cases hb : b = a
  · simp [hb, h]
  · rw [Function.update_of_ne hb]

/-- The record with its list changed, when the change is one of this list alone. -/
theorem storeFds_spec (h : m.Represents L lost) (hL : L v = pre ++ r :: post) (flag : FdFlag) {s : Linked Int}
    {l : List (Nat × Int)}
    (hlists : Made s.heap ((pre ++ r.setList s.head l flag :: post ++ L v.other).flatMap Laid.lists) lost)
    (hlive : ∀ a, (s.heap a).isSome = true → a < m.top) :
    ∃ m', m.storeFds r.addr flag s = some m' ∧
      m'.Represents (Function.update L v (pre ++ r.setList s.head l flag :: post)) lost := by
  obtain ⟨-, n, hr⟩ := h.read hL
  have hset := h.set hL hr (r.node.setFdHead s.head flag)
  refine ⟨{ m with
    nodes := Function.update m.nodes r.addr (some { val := r.node.setFdHead s.head flag, next := n })
    fdNodes := s.heap }, by simp [storeFds, hr], .of_made v ?_ hlists h.pos fun a ha => ?_⟩
  · rw [List.map_append, List.map_cons]
    cases v <;> cases flag <;> exact hset
  · rcases ha with ha | ha
    · exact h.top a (Or.inl ((isSome_update hr a).mp ha))
    · exact hlive a ha

theorem addFds_spec (pick : Memory → Nat) (h : m.Represents L lost) (hL : L v = pre ++ r :: post) (fd : Int)
    (flag : FdFlag) :
    ∃ m' p a, m.dsuSocketAddFds pick r.addr fd flag = some m' ∧
      m'.Represents (Function.update L v (pre ++ r.setList p (r.list flag ++ [(a, fd)]) flag :: post)) lost := by
  obtain ⟨ha, -, hfree, hlt, h'⟩ := malloc_spec pick h
  obtain ⟨-, n, hr⟩ := h.read hL
  obtain ⟨rest, hmade, hback⟩ := h'.made_list hL flag
  obtain ⟨s', hs', hmade', hgrow⟩ :=
    hmade.append (x := fd) (hmade.length_lt h'.pos fun a ha => h'.top a (Or.inr ha)) ha hfree
  obtain ⟨m', hm', hrep⟩ := storeFds_spec h' hL flag (hback hmade') fun a ha => by
    rcases hgrow a ha with ha | rfl
    · exact h'.top a (Or.inr ha)
    · exact hlt
  refine ⟨m', s'.head, (m.malloc pick).1, ?_, hrep⟩
  have hlist : (m.malloc pick).2.fdList r.addr flag =
      some { head := r.node.fdHead flag, heap := (m.malloc pick).2.fdNodes } := by
    simp [fdList, hr]
  unfold dsuSocketAddFds
  simp only [hlist, Option.bind_some, hs']
  exact hm'

theorem removeFds_spec (h : m.Represents L lost) (hL : L v = pre ++ r :: post) (fd : Int) (flag : FdFlag) :
    ∃ m' p, m.dsuSocketRemoveFds r.addr fd flag = some m' ∧
      m'.Represents (Function.update L v (pre ++ r.setList p ((r.list flag).eraseP fun c => c.2 == fd) flag :: post))
        lost := by
  obtain ⟨-, n, hr⟩ := h.read hL
  obtain ⟨rest, hmade, hback⟩ := h.made_list hL flag
  obtain ⟨s', hs', hmade', hshrink⟩ :=
    hmade.remove (hmade.length_lt h.pos fun a ha => h.top a (Or.inr ha)) (· == fd)
  obtain ⟨m', hm', hrep⟩ := storeFds_spec h hL flag (hback hmade') fun a ha =>
    h.top a (Or.inr (hshrink a ha))
  refine ⟨m', s'.head, ?_, hrep⟩
  simp only [dsuSocketRemoveFds, fdList, hr, Option.map_some, Option.bind_some, hs']
  exact hm'

/-- A write to fields of a record. -/
theorem write_spec (h : m.Represents L lost) (hL : L v = pre ++ r :: post) (s : DsuSocket) :
    ∃ m', m.write r.addr s = some m' ∧ m'.Represents (Function.update L v (pre ++ r.put s :: post)) lost := by
  obtain ⟨-, n, hr⟩ := h.read hL
  have hset := h.set hL hr (r.node.put s)
  have hfds := h.made_fds v
  rw [hL] at hfds
  refine ⟨{ m with nodes := Function.update m.nodes r.addr (some { val := r.node.put s, next := n }) },
    by simp [write, hr], .of_made v ?_ ?_ h.pos fun a ha => h.top a (ha.imp_left (isSome_update hr a).mp)⟩
  · rw [List.map_append, List.map_cons]
    cases v <;> exact hset
  · simpa [Laid.lists, Laid.put, SocketNode.put] using hfds

/-! ### Searches -/

/-- A search over records returns the address of the first record that passes the test, or the null pointer. -/
theorem search_cases (h : m.Represents L lost) (v : ListVar) {test : SocketNode → Option Bool} {found : DsuSocket → Bool}
    (htest : ∀ r ∈ L v, test r.node = some (found r.sock)) :
    (Linked.search test m.nodes m.top (m.list v).head = some 0 ∧ ∀ r ∈ L v, found r.sock = false) ∨
    ∃ pre r post, L v = pre ++ r :: post ∧ (∀ x ∈ pre, found x.sock = false) ∧ found r.sock = true ∧ r.addr ≠ 0 ∧
      Linked.search test m.nodes m.top (m.list v).head = some r.addr := by
  have hcells : ∀ c ∈ (L v).map Laid.cell, test c.2 = some ((test c.2).getD false) := by
    intro c hc
    obtain ⟨r, hr, rfl⟩ := List.mem_map.mp hc
    change test r.node = some ((test r.node).getD false)
    rw [htest r hr]
    rfl
  have hchain : Chain m.nodes (m.list v).head ((L v).map Laid.cell) 0 := (h.made v).chains _ List.mem_cons_self
  have hsearch := Linked.search_spec (fun x => (test x).getD false) hchain hcells (by simpa using h.length_lt v)
  rw [hsearch, List.find?_map]
  have hfound : ∀ r ∈ L v, ((fun c : Nat × SocketNode => (test c.2).getD false) ∘ Laid.cell) r = found r.sock := by
    intro r hr
    change (test r.node).getD false = _
    rw [htest r hr]
    rfl
  cases hfind : (L v).find? ((fun c : Nat × SocketNode => (test c.2).getD false) ∘ Laid.cell) with
  | none =>
    refine Or.inl ⟨rfl, fun r hr => ?_⟩
    rw [← hfound r hr]
    simpa using List.find?_eq_none.mp hfind r hr
  | some r =>
    obtain ⟨hr, pre, post, hL, hpre⟩ := List.find?_eq_some_iff_append.mp hfind
    refine Or.inr ⟨pre, r, post, hL, fun x hx => ?_, ?_, (h.read hL).1, rfl⟩
    · rw [← hfound x (by simp [hL, hx])]
      simpa using hpre x hx
    · rw [← hfound r (by simp [hL]), hr]

/-- A search in a list of descriptors. -/
theorem searchList_ne_zero {head : Nat} {l : List (Nat × Int)} {rest : List (Nat × List (Nat × Int))} (fd : Int)
    (hmade : Made m.fdNodes ((head, l) :: rest) lost) (hpos : 0 < m.top)
    (htop : ∀ a, (m.fdNodes a).isSome = true → a < m.top) :
    (Linked.search (fun d => some (d == fd)) m.fdNodes m.top head).map (· != 0) = some ((l.map Prod.snd).contains fd) := by
  have hl : Chain m.fdNodes head l 0 := hmade.chains _ List.mem_cons_self
  rw [Linked.search_spec (· == fd) hl (fun _ _ => rfl) (hmade.length_lt hpos htop)]
  cases hfind : l.find? fun c => c.2 == fd with
  | none =>
    have hnone := List.find?_eq_none.mp hfind
    have hout : fd ∉ l.map Prod.snd := by
      intro hin
      obtain ⟨c, hc, hcd⟩ := List.mem_map.mp hin
      exact hnone c hc (by simp [hcd])
    simp [hout]
  | some c =>
    have hc : c ∈ l := List.mem_of_find?_eq_some hfind
    have hne : c.1 ≠ 0 := (hl.live (List.mem_map_of_mem hc)).1
    have hcd : c.2 = fd := by simpa using List.find?_some hfind
    have hin : fd ∈ l.map Prod.snd := hcd ▸ List.mem_map_of_mem hc
    simp [hne, hin]

theorem listens_spec (h : m.Represents L lost) (hr : r ∈ L v) (fd : Int) (flag : FdFlag) :
    m.listens r.node fd flag = some (r.sock.listens fd flag) := by
  obtain ⟨pre, post, hL⟩ := List.append_of_mem hr
  obtain ⟨rest, hmade, -⟩ := h.made_list hL flag
  have hsearch := searchList_ne_zero fd hmade h.pos fun a ha => h.top a (Or.inr ha)
  cases flag with
  | monitor => rfl
  | nonInternal => exact hsearch
  | internal => exact hsearch

end Memory
end Represents
end OpenDSU
