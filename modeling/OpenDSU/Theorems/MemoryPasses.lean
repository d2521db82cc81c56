import OpenDSU.MemoryProcess
import OpenDSU.Theorems.MemoryLayout

/-! Passes over the records in memory are the walks of the model on lists: what a callback does to the record it is
given, the pass does to each. -/

namespace OpenDSU
open Heap

namespace Memory
variable {σ τ : Type} {m : Memory} {L : Layout} {lost : List Nat} {r : Laid} {pre post : List Laid} {a : Nat}

/-- Work on the record at `a`, which stands in `binds` between `pre` and `post`, has come to an end: it has made of the
    record and the state what stands in `out`, and has changed nothing else in memory. -/
def Leaves (L : Layout) (lost : List Nat) (pre post : List Laid) (a : Nat) (got : Option (Memory × σ))
    (out : DsuSocket × σ) : Prop :=
  ∃ m r, got = some (m, out.2) ∧ r.addr = a ∧ r.sock = out.1 ∧
    m.Represents (Function.update L .binds (pre ++ r :: post)) lost

/-- The callback does to a record in memory what `f` does to it. -/
def Does (body : Nat → Memory × σ → Option (Memory × σ)) (f : DsuSocket → σ → DsuSocket × σ) : Prop :=
  ∀ {L lost pre post m r}, m.Represents (Function.update L .binds (pre ++ r :: post)) lost →
    ∀ s, Leaves L lost pre post r.addr (body r.addr (m, s)) (f r.sock s)

theorem Leaves.bind {got : Option (Memory × σ)} {out : DsuSocket × σ} {k : Memory × σ → Option (Memory × τ)}
    {out' : DsuSocket × τ} (h : Leaves L lost pre post a got out)
    (hk : ∀ m r, r.addr = a → r.sock = out.1 → m.Represents (Function.update L .binds (pre ++ r :: post)) lost →
      Leaves L lost pre post a (k (m, out.2)) out') : Leaves L lost pre post a (got.bind k) out' := by
  obtain ⟨m, r, rfl, ha, hr, hm⟩ := h
  exact hk m r ha hr hm

theorem Leaves.map {got : Option (Memory × σ)} {out : DsuSocket × σ} (h : Leaves L lost pre post a got out) (g : σ → τ) :
    Leaves L lost pre post a (got.map fun b => (b.1, g b.2)) (out.1, g out.2) := by
  obtain ⟨m, r, rfl, ha, hr, hm⟩ := h
  exact ⟨m, r, rfl, ha, hr, hm⟩

theorem leaves_self (hm : m.Represents (Function.update L .binds (pre ++ r :: post)) lost) (s : σ) :
    Leaves L lost pre post r.addr (some (m, s)) (r.sock, s) :=
  ⟨m, r, rfl, rfl, rfl, hm⟩

/-- A descriptor put at the end of a list of the record. -/
theorem sock_add (r : Laid) (p a : Nat) (fd : Int) (flag : FdFlag) :
    (r.setList p (r.list flag ++ [(a, fd)]) flag).sock = OpenDSU.dsuSocketAddFds r.sock fd flag := by
  cases flag <;> simp [Laid.setList, Laid.sock, Laid.list, SocketNode.record, SocketNode.setFdHead,
    OpenDSU.dsuSocketAddFds]

theorem map_eraseP (l : List (Nat × Int)) (v : Int) :
    (l.eraseP fun c => c.2 == v).map Prod.snd = (l.map Prod.snd).erase v := by
  rw [List.erase_eq_eraseP', List.eraseP_map]
  rfl

/-- A descriptor taken off a list of the record. -/
theorem sock_remove (r : Laid) (p : Nat) (fd : Int) (flag : FdFlag) :
    (r.setList p ((r.list flag).eraseP fun c => c.2 == fd) flag).sock = OpenDSU.dsuSocketRemoveFds r.sock fd flag := by
  cases flag <;> simp [Laid.setList, Laid.sock, Laid.list, SocketNode.record, SocketNode.setFdHead,
    OpenDSU.dsuSocketRemoveFds, map_eraseP]

section Record
variable (hm : m.Represents (Function.update L .binds (pre ++ r :: post)) lost)
include hm

/-- The record that a pass has come to: its node, and the pointer to the records behind it. -/
theorem Represents.next :
    m.nodes r.addr = some { val := r.node, next := first (post.map Laid.cell) } ∧
      (pre = [] → m.binds = r.addr) ∧ r.addr ≠ 0 := by
  have hchain : Chain m.nodes m.binds ((pre ++ r :: post).map Laid.cell) 0 := by
    have := (hm.made .binds).chains _ List.mem_cons_self
    rwa [Function.update_self] at this
  rw [List.map_append, List.map_cons, chain_append] at hchain
  obtain ⟨p, hpre, rfl, hne, n, hnode, hpost⟩ := hchain
  refine ⟨?_, fun h => ?_, hne⟩
  · rw [hnode, hpost.eq_first]
  · subst h
    exact hpre

theorem Represents.node : ∃ n, m.nodes r.addr = some { val := r.node, next := n } :=
  ⟨_, (Represents.next hm).1⟩

/-- A write to fields of the record. -/
theorem write_leaves (s : DsuSocket) (t : σ) :
    Leaves L lost pre post r.addr ((m.write r.addr s).map fun m => (m, t)) ((r.put s).sock, t) := by
  obtain ⟨m', hm', hrep⟩ := write_spec hm (Function.update_self ..) s
  rw [Function.update_idem] at hrep
  exact ⟨m', r.put s, by rw [hm']; rfl, rfl, rfl, hrep⟩

theorem addFds_leaves (pick : Memory → Nat) (fd : Int) (flag : FdFlag) (t : σ) :
    Leaves L lost pre post r.addr ((m.dsuSocketAddFds pick r.addr fd flag).map fun m => (m, t))
      (OpenDSU.dsuSocketAddFds r.sock fd flag, t) := by
  obtain ⟨m', p, a, hm', hrep⟩ := addFds_spec pick hm (Function.update_self ..) fd flag
  rw [Function.update_idem] at hrep
  refine ⟨m', _, by rw [hm']; rfl, ?_, sock_add r p a fd flag, hrep⟩
  cases flag <;> rfl

end Record

/-! ### Passes -/

theorem forallSockets_spec {body : Nat → Memory × σ → Option (Memory × σ)} {f : DsuSocket → σ → DsuSocket × σ}
    (hbody : Does body f) (fuel : Nat) (hfuel : post.length < fuel)
    (hm : m.Represents (Function.update L .binds (pre ++ post)) lost) (s : σ) :
    ∃ m' l, dsuForallSockets body fuel (first (post.map Laid.cell)) (m, s) =
        some (m', (walk f (post.map Laid.sock) s).2) ∧ l.map Laid.sock = (walk f (post.map Laid.sock) s).1 ∧
      m'.Represents (Function.update L .binds (pre ++ l)) lost := by
  induction post generalizing m s pre fuel with
  | nil =>
    obtain ⟨fuel, rfl⟩ := Nat.exists_eq_succ_of_ne_zero (Nat.ne_of_gt hfuel)
    exact ⟨m, [], rfl, rfl, hm⟩
  | cons r post ih =>
    obtain ⟨fuel, rfl⟩ := Nat.exists_eq_succ_of_ne_zero (Nat.ne_zero_of_lt hfuel)
    obtain ⟨m₁, r₁, hgot, haddr, hsock, hm₁⟩ := hbody hm s
    have hnode := (Represents.next hm₁).1
    rw [haddr] at hnode
    rw [List.append_cons] at hm₁
    obtain ⟨m', l, hrun, hl, hm'⟩ := ih fuel (Nat.lt_of_succ_lt_succ hfuel) hm₁ (f r.sock s).2
    rw [← List.append_cons] at hm'
    refine ⟨m', r₁ :: l, ?_, by simp [hsock, hl], hm'⟩
    have hne := (Represents.next hm).2.2
    simp [dsuForallSockets, first, Laid.cell, hne, hgot, hnode] at hrun ⊢
    exact hrun

/-- A pass over the records in memory is a walk over the list of them. -/
theorem pass_spec {body : Nat → Memory × σ → Option (Memory × σ)} {f : DsuSocket → σ → DsuSocket × σ}
    (hbody : Does body f) (hm : m.Represents L lost) (s : σ) :
    ∃ m' l, pass body (m, s) = some (m', (walk f ((L .binds).map Laid.sock) s).2) ∧
      l.map Laid.sock = (walk f ((L .binds).map Laid.sock) s).1 ∧ m'.Represents (Function.update L .binds l) lost := by
  have hbinds : m.binds = first ((L .binds).map Laid.cell) :=
    Chain.eq_first ((hm.made .binds).chains _ List.mem_cons_self)
  have hself : m.Represents (Function.update L .binds ([] ++ L .binds)) lost := by
    rwa [List.nil_append, Function.update_eq_self]
  obtain ⟨m', l, hrun, hl, hm'⟩ := forallSockets_spec hbody m.top (hm.length_lt .binds) hself s
  refine ⟨m', l, ?_, hl, hm'⟩
  rw [pass, hbinds]
  exact hrun

/-! ### Callbacks -/

/-- A function that neither reads nor changes the lists of a record. -/
def Blind (f : DsuSocket → σ → DsuSocket × σ) : Prop :=
  ∀ r s fds comfds, f { r with fds := fds, comfds := comfds } s =
    ({ (f r s).1 with fds := fds, comfds := comfds }, (f r s).2)

/-- The fields of a record in memory, without its lists. -/
theorem sock_eq (r : Laid) :
    r.sock = { r.node.record [] [] with fds := r.fds.map Prod.snd, comfds := r.comfds.map Prod.snd } := rfl

theorem put_sock (r : Laid) (s : DsuSocket) :
    (r.put s).sock = { s with fds := r.fds.map Prod.snd, comfds := r.comfds.map Prod.snd } := rfl

theorem onFields_does {f : DsuSocket → σ → DsuSocket × σ} (hf : Blind f) : Does (onFields f) f := by
  intro L lost pre post m r hm s
  obtain ⟨n, hnode⟩ := hm.node
  have hsock : f r.sock s = ((r.put (f (r.node.record [] []) s).1).sock, (f (r.node.record [] []) s).2) := by
    rw [sock_eq, hf, put_sock]
  rw [onFields, hnode, hsock]
  exact write_leaves hm _ _

/-- A loop over a list of descriptors reads the list. -/
theorem forallFds_spec {h : Heap Int} {p : Nat} {l : List (Nat × Int)} (each : σ → Int → σ) (hl : Chain h p l 0)
    (fuel : Nat) (hfuel : l.length < fuel) (s : σ) :
    forallFds each h fuel p s = some ((l.map Prod.snd).foldl each s) := by
  induction l generalizing p fuel s with
  | nil =>
    obtain ⟨fuel, rfl⟩ := Nat.exists_eq_succ_of_ne_zero (Nat.ne_of_gt hfuel)
    obtain rfl := chain_nil.mp hl
    rfl
  | cons c l ih =>
    obtain ⟨fuel, rfl⟩ := Nat.exists_eq_succ_of_ne_zero (Nat.ne_zero_of_lt hfuel)
    obtain ⟨rfl, hne, n, hc, hl⟩ := hl
    simp [forallFds, hne, hc, ih hl fuel (Nat.lt_of_succ_lt_succ hfuel)]

theorem sniff_does (first : DsuSocket → σ → σ) (each : σ → Int → σ)
    (hfirst : ∀ r s fds comfds, first { r with fds := fds, comfds := comfds } s = first r s) :
    Does (sniff first each) fun r s => (r, r.comfds.foldl each (first r s)) := by
  intro L lost pre post m r hm s
  obtain ⟨n, hnode⟩ := hm.node
  obtain ⟨rest, hmade, -⟩ := hm.made_list (Function.update_self ..) .internal
  have hlist : Chain m.fdNodes r.node.comfds r.comfds 0 := hmade.chains _ List.mem_cons_self
  have hlength : r.comfds.length < m.top := hmade.length_lt hm.pos fun a ha => hm.top a (Or.inr ha)
  have hrun := forallFds_spec each hlist m.top hlength (first (r.node.record [] []) s)
  have hsock : first r.sock s = first (r.node.record [] []) s := hfirst (r.node.record [] []) s _ _
  simp only [sniff, hnode, Option.bind_some, hrun, Option.map_some, hsock]
  exact leaves_self hm _

/-! ### The handlers' loop over `comfds` -/

/-- The loop as it goes over the list: over all the descriptors that were there at its start. -/
def visit (answer : Int → DsuSocket → σ → Bool × DsuSocket × σ) : List Int → DsuSocket → σ → DsuSocket × σ
  | [], r, s => (r, s)
  | c :: cs, r, s => visit answer cs (answer c r s).2.1 (answer c r s).2.2

/-- The answer on a connection depends on no list, and takes the connection off `comfds` when it closes it. -/
def Answers (answer : Int → DsuSocket → σ → Bool × DsuSocket × σ) : Prop :=
  ∀ c r s fds comfds, answer c { r with fds := fds, comfds := comfds } s =
    ((answer c r s).1,
      { (answer c r s).2.1 with fds := fds, comfds := if (answer c r s).1 then comfds.erase c else comfds },
      (answer c r s).2.2)

section Comfds
variable {kept rest : List (Nat × Int)} {q : Nat} {v : Int}

/-- A node of `comfds`, and the pointer to the nodes behind it. -/
theorem Represents.comfdsNode (hm : m.Represents (Function.update L .binds (pre ++ r :: post)) lost)
    (hr : r.comfds = kept ++ (q, v) :: rest) : q ≠ 0 ∧ m.fdNodes q = some { val := v, next := first rest } := by
  obtain ⟨lists, hmade, -⟩ := hm.made_list (Function.update_self ..) .internal
  have hchain : Chain m.fdNodes r.node.comfds r.comfds 0 := hmade.chains _ List.mem_cons_self
  rw [hr, chain_append] at hchain
  obtain ⟨p, -, rfl, hne, n, hnode, hrest⟩ := hchain
  exact ⟨hne, hrest.eq_first ▸ hnode⟩

/-- The node that is freed stands no later than the one whose connection was closed, so the nodes to come stay. -/
theorem eraseP_visited (kept rest : List (Nat × Int)) (q : Nat) (v : Int) :
    ∃ kept', (kept ++ (q, v) :: rest).eraseP (fun c => c.2 == v) = kept' ++ rest := by
  by_cases hkept : ∃ c ∈ kept, (fun c : Nat × Int => c.2 == v) c = true
  · obtain ⟨c, hc, hcv⟩ := hkept
    refine ⟨kept.eraseP (fun c => c.2 == v) ++ [(q, v)], ?_⟩
    rw [List.eraseP_append_left (p := fun c : Nat × Int => c.2 == v) hcv _ hc]
    simp
  · have hnone : ∀ c ∈ kept, ¬(fun c : Nat × Int => c.2 == v) c = true := fun c hc hcv => hkept ⟨c, hc, hcv⟩
    refine ⟨kept, ?_⟩
    rw [List.eraseP_append_right _ hnone]
    simp

/-- The loop does not touch a node that was freed, and does to the record what it does on lists. -/
theorem visitComfds_leaves {answer : Int → DsuSocket → σ → Bool × DsuSocket × σ} (hans : Answers answer)
    (hm : m.Represents (Function.update L .binds (pre ++ r :: post)) lost) (hr : r.comfds = kept ++ rest) (fuel : Nat)
    (hfuel : rest.length < fuel) (s : σ) :
    Leaves L lost pre post r.addr (visitComfds answer r.addr fuel (first rest) (m, s))
      (visit answer (rest.map Prod.snd) r.sock s) := by
  induction rest generalizing m r kept fuel s with
  | nil =>
    obtain ⟨fuel, rfl⟩ := Nat.exists_eq_succ_of_ne_zero (Nat.ne_of_gt hfuel)
    exact leaves_self hm s
  | cons c rest ih =>
    obtain ⟨q, v⟩ := c
    obtain ⟨fuel, rfl⟩ := Nat.exists_eq_succ_of_ne_zero (Nat.ne_zero_of_lt hfuel)
    have hfuel := Nat.lt_of_succ_lt_succ hfuel
    obtain ⟨hne, hq⟩ := hm.comfdsNode hr
    obtain ⟨n, hnode⟩ := hm.node
    have hans' : answer v r.sock s = _ := hans v (r.node.record [] []) s (r.fds.map Prod.snd) (r.comfds.map Prod.snd)
    generalize hgot : answer v (r.node.record [] []) s = got at hans'
    obtain ⟨closed, r', s'⟩ := got
    obtain ⟨m₁, hwrite, hm₁⟩ := write_spec hm (Function.update_self ..) r'
    rw [Function.update_idem] at hm₁
    have hr₁ : (r.put r').comfds = kept ++ (q, v) :: rest := hr
    have hq₁ := (hm₁.comfdsNode hr₁).2
    have hvisit : visit answer (((q, v) :: rest).map Prod.snd) r.sock s =
        visit answer (rest.map Prod.snd) (answer v r.sock s).2.1 (answer v r.sock s).2.2 := rfl
    rw [hvisit, hans']
    cases closed with
    | false =>
      rw [List.append_cons] at hr₁
      have hstep : visitComfds answer r.addr (fuel + 1) (first ((q, v) :: rest)) (m, s) =
          visitComfds answer r.addr fuel (first rest) (m₁, s') := by
        simp [visitComfds, first, hne, hq, hnode, hgot, hwrite, hq₁]
      rw [hstep]
      exact ih hm₁ hr₁ fuel hfuel s'
    | true =>
      obtain ⟨m₂, p, hremove, hm₂⟩ := removeFds_spec hm₁ (Function.update_self ..) v .internal
      rw [Function.update_idem] at hm₂
      obtain ⟨kept', hkept'⟩ := eraseP_visited kept rest q v
      have hr₂ : ((r.put r').setList p (((r.put r').list .internal).eraseP fun c => c.2 == v) .internal).comfds =
          kept' ++ rest := by
        rw [← hkept', ← hr₁]
        rfl
      have hstep : visitComfds answer r.addr (fuel + 1) (first ((q, v) :: rest)) (m, s) =
          visitComfds answer r.addr fuel (first rest) (m₂, s') := by
        change m₁.dsuSocketRemoveFds r.addr v .internal = some m₂ at hremove
        simp [visitComfds, first, hne, hq, hnode, hgot, hwrite, hq₁, hremove]
      have hsock : ((r.put r').setList p ((r.put r').comfds.eraseP fun c => c.2 == v) .internal).sock =
          { r' with fds := r.fds.map Prod.snd, comfds := (r.comfds.map Prod.snd).erase v } :=
        sock_remove (r.put r') p v .internal
      rw [hstep]
      have hrest := ih hm₂ hr₂ fuel hfuel s'
      rw [Laid.list, hsock] at hrest
      exact hrest

end Comfds

end Memory
end OpenDSU
