import OpenDSU.Core

/-! What a system call does to the descriptors of the process and to the descriptor locks it holds: nothing,
or one of them changes. The other parts of the kernel's side are left open, but for one invariant of the epoll
registrations. -/

namespace OpenDSU

def Sys.isLock : Sys → Bool
  | .trywait _ | .post _ => true
  | _ => false

namespace World

/-- The operations on the descriptor locks, in their order. -/
def lockOps (w : World) : List Sys := w.log.filter Sys.isLock

/-- The registrations that the library made for internal descriptors carry the number of the descriptor. -/
def Named (w : World) : Prop := ∀ g ∈ w.regs, g.internal = true → g.ev.data.fd = g.fd

structure Same (w w' : World) : Prop where
  fdt : w'.fdt = w.fdt
  files : w'.files = w.files
  held : w'.held = w.held
  lockOps : w'.lockOps = w.lockOps
  named : w.Named → w'.Named

/-- A descriptor is opened under a number that was free. -/
structure Opens (w : World) (fd : Int) (kind : Kind) (w' : World) : Prop where
  nonneg : 0 ≤ fd
  free : w.fdt fd = none
  fdt : w'.fdt = fun d => if d = fd then some { id := w.files, kind := kind } else w.fdt d
  files : w'.files = w.files + 1
  held : w'.held = w.held
  lockOps : w'.lockOps = w.lockOps
  named : w.Named → w'.Named

structure Closes (w : World) (fd : Int) (w' : World) : Prop where
  fdt : w'.fdt = fun d => if d = fd then none else w.fdt d
  files : w'.files = w.files
  held : w'.held = w.held
  lockOps : w'.lockOps = w.lockOps
  named : w.Named → w'.Named

structure Locks (w : World) (sem : Nat) (w' : World) : Prop where
  free : sem ∉ w.held
  fdt : w'.fdt = w.fdt
  files : w'.files = w.files
  held : w'.held = sem :: w.held
  lockOps : w'.lockOps = w.lockOps ++ [.trywait sem]
  named : w.Named → w'.Named

structure Unlocks (w : World) (sem : Nat) (w' : World) : Prop where
  fdt : w'.fdt = w.fdt
  files : w'.files = w.files
  held : w'.held = w.held.erase sem
  lockOps : w'.lockOps = w.lockOps ++ [.post sem]
  named : w.Named → w'.Named

variable {w w' w'' : World}

theorem Same.refl (w : World) : w.Same w := ⟨rfl, rfl, rfl, rfl, id⟩

theorem Same.trans (h : w.Same w') (h' : w'.Same w'') : w.Same w'' :=
  ⟨h'.fdt.trans h.fdt, h'.files.trans h.files, h'.held.trans h.held, h'.lockOps.trans h.lockOps, h'.named ∘ h.named⟩

theorem Opens.same {fd : Int} {kind : Kind} (h : w.Opens fd kind w') (h' : w'.Same w'') : w.Opens fd kind w'' :=
  ⟨h.nonneg, h.free, h'.fdt.trans h.fdt, h'.files.trans h.files, h'.held.trans h.held, h'.lockOps.trans h.lockOps,
    h'.named ∘ h.named⟩

theorem Same.closes {fd : Int} (h : w.Same w') (h' : w'.Closes fd w'') : w.Closes fd w'' where
  fdt := by rw [h'.fdt, h.fdt]
  files := h'.files.trans h.files
  held := h'.held.trans h.held
  lockOps := h'.lockOps.trans h.lockOps
  named := h'.named ∘ h.named

theorem Same.locks {sem : Nat} (h : w.Same w') (h' : w'.Locks sem w'') : w.Locks sem w'' where
  free := h.held ▸ h'.free
  fdt := h'.fdt.trans h.fdt
  files := h'.files.trans h.files
  held := by rw [h'.held, h.held]
  lockOps := by rw [h'.lockOps, h.lockOps]
  named := h'.named ∘ h.named

theorem Closes.same {fd : Int} (h : w.Closes fd w') (h' : w'.Same w'') : w.Closes fd w'' :=
  ⟨h'.fdt.trans h.fdt, h'.files.trans h.files, h'.held.trans h.held, h'.lockOps.trans h.lockOps, h'.named ∘ h.named⟩

theorem isOpen_congr (h : w'.fdt = w.fdt) (d : Int) : w'.isOpen d = w.isOpen d := by
  unfold isOpen
  rw [h]

variable (K : Kernel) (w)

theorem same_tick : w.Same w.tick := ⟨rfl, rfl, rfl, rfl, id⟩

theorem same_record {e : Sys} (h : e.isLock = false) : w.Same (w.record e) :=
  ⟨rfl, rfl, rfl, by simp [lockOps, record, h], id⟩

theorem same_waitStatus (port : Nat) : w.Same (w.waitStatus K port).2 := ⟨rfl, rfl, rfl, rfl, id⟩

theorem same_setStatus (port : Nat) (st : Status) : w.Same (w.setStatus port st) := ⟨rfl, rfl, rfl, rfl, id⟩

theorem same_waitWorkers : w.Same (w.waitWorkers K).2 := ⟨rfl, rfl, rfl, rfl, id⟩

theorem same_recv (fd : Int) : w.Same (w.recv K fd).2 := w.same_record rfl

theorem epollCtl_fdt (epfd : Int) (op : EpollOp) (fd : Int) (ev : EpollEvent) (internal : Bool) :
    (w.epollCtl K epfd op fd ev internal).2.fdt = w.fdt := by
  unfold epollCtl
  split
  · rfl
  · split
    · rfl
    · cases op <;> simp only <;> split <;> rfl

/-- The library adds and deletes registrations; those it adds for internal descriptors carry their number. -/
theorem same_epollCtl (epfd : Int) {op : EpollOp} {fd : Int} {ev : EpollEvent} {internal : Bool}
    (h : op ≠ .mod ∧ (op = .add → internal = true → ev.data.fd = fd)) :
    w.Same (w.epollCtl K epfd op fd ev internal).2 := by
  unfold epollCtl
  split
  · exact w.same_tick
  · split
    · exact w.same_tick
    · cases op with
      | mod => exact absurd rfl h.1
      | add =>
        simp only
        split
        · exact w.same_tick
        · refine ⟨rfl, rfl, rfl, rfl, fun hw g hg hi => ?_⟩
          rcases List.mem_append.mp hg with hg | hg
          · exact hw g hg hi
          · cases List.mem_singleton.mp hg
            exact h.2 rfl hi
      | del =>
        simp only
        split
        · exact ⟨rfl, rfl, rfl, rfl, fun hw g hg => hw g (List.mem_filter.mp hg).1⟩
        · exact w.same_tick

theorem closes_close (fd : Int) : w.Closes fd (w.close K fd) := by
  have hops : (w.close K fd).lockOps = w.lockOps := by
    unfold close
    split <;> simp [lockOps, record, Sys.isLock]
  unfold close at hops ⊢
  cases h : w.fdt fd with
  | none =>
    rw [h] at hops
    refine ⟨?_, rfl, rfl, hops, id⟩
    funext d
    by_cases hd : d = fd
    · simp [record, hd, h]
    · simp [record, hd]
  | some file =>
    rw [h] at hops
    refine ⟨rfl, rfl, rfl, hops, fun hw g hg => hw g ?_⟩
    simp only at hg
    split at hg
    · exact hg
    · exact (List.mem_filter.mp hg).1

/-! The system calls that the handlers make leave the log and the shared memory to them. -/

theorem close_log (fd : Int) : (w.close K fd).log = w.log ++ [.close fd] := by
  unfold close
  split <;> rfl

theorem close_status (fd : Int) : (w.close K fd).status = w.status := by
  unfold close
  split <;> rfl

theorem epollCtl_log_status (epfd : Int) (op : EpollOp) (fd : Int) (ev : EpollEvent) (internal : Bool) :
    (w.epollCtl K epfd op fd ev internal).2.log = w.log ∧
      (w.epollCtl K epfd op fd ev internal).2.status = w.status := by
  unfold epollCtl
  split
  · exact ⟨rfl, rfl⟩
  · split
    · exact ⟨rfl, rfl⟩
    · cases op <;> simp only <;> split <;> exact ⟨rfl, rfl⟩

theorem accept_log (fd : Int) (kind : Kind) : (w.accept K fd kind).2.log = w.log := by
  unfold accept allot
  repeat' split
  all_goals rfl

theorem accept_status (fd : Int) (kind : Kind) : (w.accept K fd kind).2.status = w.status := by
  unfold accept allot
  repeat' split
  all_goals rfl

/-- A descriptor handed out is one that was free, or there is none. -/
theorem allot_cases (kind : Kind) :
    ((w.allot K kind).1 = -1 ∧ w.Same (w.allot K kind).2) ∨
    ∃ fd, (w.allot K kind).1 = fd ∧ w.Opens fd kind (w.allot K kind).2 := by
  unfold allot
  split
  · rename_i fd _
    split
    · rename_i hfd
      simp only [isOpen, Bool.and_eq_true, decide_eq_true_eq, Bool.not_eq_true', Option.isSome_eq_false_iff,
        Option.isNone_iff_eq_none] at hfd
      exact Or.inr ⟨fd, rfl, hfd.1, hfd.2, rfl, rfl, rfl, rfl, id⟩
    · exact Or.inl ⟨rfl, w.same_tick⟩
  · exact Or.inl ⟨rfl, w.same_tick⟩

theorem accept_cases (fd : Int) (kind : Kind) :
    ((w.accept K fd kind).1 = -1 ∧ w.Same (w.accept K fd kind).2) ∨
    ∃ c, (w.accept K fd kind).1 = c ∧ w.Opens c kind (w.accept K fd kind).2 := by
  unfold accept
  split
  · exact w.allot_cases K kind
  · exact Or.inl ⟨rfl, w.same_tick⟩

theorem recvmsg_cases (fd : Int) (kind : Kind) :
    ((∀ n port, (w.recvmsg K fd kind).1 ≠ .full n port) ∧ w.Same (w.recvmsg K fd kind).2) ∨
    ∃ n port, (w.recvmsg K fd kind).1 = .full n port ∧ w.Opens n kind (w.recvmsg K fd kind).2 := by
  unfold recvmsg
  split
  · exact Or.inl ⟨by simp, w.same_tick⟩
  · split
    · rename_i n port _
      split
      · rename_i hn
        simp only [isOpen, Bool.and_eq_true, decide_eq_true_eq, Bool.not_eq_true', Option.isSome_eq_false_iff,
          Option.isNone_iff_eq_none] at hn
        exact Or.inr ⟨n, port, rfl, hn.1, hn.2, rfl, rfl, rfl, rfl, id⟩
      · exact Or.inl ⟨by simp, w.same_tick⟩
    · rename_i hne
      exact Or.inl ⟨fun n port he => hne n port he, w.same_tick⟩

theorem trywait_cases (sem : Nat) :
    ((w.trywait K sem).1 = false ∧ w.Same (w.trywait K sem).2) ∨
    ((w.trywait K sem).1 = true ∧ w.Locks sem (w.trywait K sem).2) := by
  unfold trywait
  split
  · rename_i h
    simp only [Bool.and_eq_true, Bool.not_eq_true', List.contains_eq_mem, decide_eq_false_iff_not] at h
    exact Or.inr ⟨rfl, h.2, rfl, rfl, rfl, by simp [lockOps, record, Sys.isLock], id⟩
  · exact Or.inl ⟨rfl, w.same_tick⟩

theorem unlocks_post (sem : Nat) : w.Unlocks sem (w.post sem) :=
  ⟨rfl, rfl, rfl, by simp [lockOps, post, record, Sys.isLock], id⟩

end World

variable (K : Kernel) (w : World)

theorem same_dsuWriteFd (fd sendfd port : Int) : w.Same (dsuWriteFd K w fd sendfd port) := by
  unfold dsuWriteFd
  split
  · exact w.same_record rfl
  · exact w.same_tick

theorem dsuWriteFd_log (fd sendfd port : Int) : (dsuWriteFd K w fd sendfd port).log =
    w.log ++ if w.isOpen sendfd && K.getsockopt w sendfd then [.sendmsg fd sendfd port] else [] := by
  unfold dsuWriteFd
  split
  · rfl
  · exact (List.append_nil _).symm

/-- The lock is taken exactly where the answer says so. -/
theorem tryMonitor_cases (r : DsuSocket) (transfer : Bool) :
    ((tryMonitor K r transfer w).1 ≠ .locked ∧ w.Same (tryMonitor K r transfer w).2.2) ∨
    ((tryMonitor K r transfer w).1 = .locked ∧ w.Locks r.fdSem (tryMonitor K r transfer w).2.2) := by
  have hstatus := w.same_waitStatus K r.port
  unfold tryMonitor
  simp only
  split
  · split
    · rcases (w.waitStatus K r.port).2.trywait_cases K r.fdSem with ⟨hgot, hs⟩ | ⟨hgot, hs⟩ <;> rw [hgot]
      · exact Or.inl ⟨by simp, hstatus.trans hs⟩
      · exact Or.inr ⟨by simp, hstatus.locks hs⟩
    · exact Or.inl ⟨by simp, hstatus⟩
  · exact Or.inl ⟨by simp, hstatus⟩

end OpenDSU
