import OpenDSU.Exchange
import OpenDSU.Theorems.Calls

/-! When `dsu_inherit_fd` is all or nothing.

The results of `dsu_read_fd` are not looked at, and both messages write to one `port`. So a message that is lost
or damaged beside a good one leaves the record with some of the old values, 0 and -1. -/

namespace OpenDSU

/-- The port came in full, and a descriptor with it. -/
def Received.Whole (m : Received) : Prop := m.n = nbytes ∧ ∃ fd, m.control = .rights fd

/-- The message leaves `d` where `old` stood: it brings nothing, or this descriptor, or none. -/
def Received.Leaves (m : Received) (old d : Int) : Prop :=
  (m.n ≤ 0 ∧ d = old) ∨
  (0 < m.n ∧ ((∃ fd : Nat, m.control = .rights fd ∧ d = fd) ∨ ((∀ fd, m.control ≠ .rights fd) ∧ d = -1)))

/-- The message sets the port. -/
def Received.Ports (m : Received) : Prop := 0 < m.n ∧ m.control ≠ .other

namespace Exchange

/-- A port comes back only with two whole messages, of which the record has the descriptors; else the record has the
    descriptors that it had. -/
structure AllOrNothing (x : Exchange) (s : DsuSocket) : Prop where
  all : 0 < (x.dsuInheritFd s).1 → ∃ shadowfd comfd : Nat,
    x.first.n = nbytes ∧ x.first.control = .rights shadowfd ∧ (x.dsuInheritFd s).2.1.shadowfd = shadowfd ∧
    x.second.n = nbytes ∧ x.second.control = .rights comfd ∧ (x.dsuInheritFd s).2.1.comfd = comfd ∧
    (x.dsuInheritFd s).2.2 = [s.comfd]
  nothing : (x.dsuInheritFd s).1 ≤ 0 →
    (x.dsuInheritFd s).2.1.shadowfd = s.shadowfd ∧ (x.dsuInheritFd s).2.1.comfd = s.comfd

/-- Both messages are whole, and the second says which port it is. -/
def Complete (x : Exchange) : Prop := x.first.Whole ∧ x.second.Whole ∧ 0 < x.second.nport

/-- No port arrives, and the messages leave by chance what the record has. -/
structure Idle (x : Exchange) (s : DsuSocket) : Prop where
  shadowfd : x.first.Leaves s.shadowfd s.shadowfd
  comfd : x.second.Leaves 0 s.comfd
  last : x.second.Ports → x.second.nport ≤ 0
  first : ¬x.second.Ports → x.first.Ports → x.first.nport ≤ 0

end Exchange

variable {m : Received} {x : Exchange} {s : DsuSocket} {recvfd port d : Int}

/-! ### One message -/

theorem Received.recvfd_eq_iff : (m.dsuReadFd recvfd port).2.1 = d ↔ m.Leaves recvfd d := by
  unfold dsuReadFd Leaves
  split
  · rename_i hn
    simp [hn, Int.not_lt.mpr hn, eq_comm]
  · rename_i hn
    rw [Int.not_le] at hn
    cases hc : m.control with
    | none => simp [Int.not_le.mpr hn, hn, eq_comm]
    | other => simp [Int.not_le.mpr hn, hn, eq_comm]
    | rights fd => simp [Int.not_le.mpr hn, hn, eq_comm]

theorem Received.port_of_ports (h : m.Ports) : (m.dsuReadFd recvfd port).2.2 = m.nport := by
  obtain ⟨hn, hc⟩ := h
  unfold dsuReadFd
  rw [if_neg (Int.not_le.mpr hn)]
  cases hcontrol : m.control with
  | none => rfl
  | other => exact absurd hcontrol hc
  | rights fd => rfl

theorem Received.port_of_not_ports (h : ¬m.Ports) : (m.dsuReadFd recvfd port).2.2 = port := by
  unfold dsuReadFd
  split
  · rfl
  · rename_i hn
    cases hcontrol : m.control with
    | none => exact absurd ⟨Int.not_le.mp hn, by simp [hcontrol]⟩ h
    | other => rfl
    | rights fd => exact absurd ⟨Int.not_le.mp hn, by simp [hcontrol]⟩ h

theorem Received.Whole.ports (h : m.Whole) : m.Ports := by
  obtain ⟨hn, fd, hc⟩ := h
  exact ⟨by rw [hn]; decide, by simp [hc]⟩

theorem Received.recvfd_of_rights {fd : Nat} (hn : m.n = nbytes) (hc : m.control = .rights fd) :
    (m.dsuReadFd recvfd port).2.1 = fd :=
  recvfd_eq_iff.mpr (Or.inr ⟨by rw [hn]; decide, Or.inl ⟨fd, hc, rfl⟩⟩)

/-! ### The exchange -/

namespace Exchange

theorem dsuInheritFd_made (h : x.Made) (s : DsuSocket) : x.dsuInheritFd s =
    let a := x.first.dsuReadFd s.shadowfd 0
    let b := x.second.dsuReadFd 0 a.2.2
    (b.2.2, { s with shadowfd := a.2.1, comfd := b.2.1 }, [s.comfd]) :=
  if_pos h

theorem dsuInheritFd_not_made (h : ¬x.Made) (s : DsuSocket) : x.dsuInheritFd s = (-1, s, []) := if_neg h

/-- The port is the one of the last message that brings one. -/
theorem port_nonpos_iff (h : x.Made) : (x.dsuInheritFd s).1 ≤ 0 ↔
    (x.second.Ports → x.second.nport ≤ 0) ∧ (¬x.second.Ports → x.first.Ports → x.first.nport ≤ 0) := by
  rw [dsuInheritFd_made h]
  by_cases h₂ : x.second.Ports
  · simp [Received.port_of_ports h₂, h₂]
  · by_cases h₁ : x.first.Ports
    · simp [Received.port_of_not_ports h₂, Received.port_of_ports h₁, h₁, h₂]
    · simp [Received.port_of_not_ports h₂, Received.port_of_not_ports h₁, h₁, h₂]

theorem idle_iff (h : x.Made) : x.Idle s ↔ (x.dsuInheritFd s).1 ≤ 0 ∧
    (x.dsuInheritFd s).2.1.shadowfd = s.shadowfd ∧ (x.dsuInheritFd s).2.1.comfd = s.comfd := by
  rw [port_nonpos_iff h, dsuInheritFd_made h]
  simp only [Received.recvfd_eq_iff]
  exact ⟨fun hi => ⟨⟨hi.last, hi.first⟩, hi.shadowfd, hi.comfd⟩, fun ⟨⟨hlast, hfirst⟩, hs, hc⟩ => ⟨hs, hc, hlast, hfirst⟩⟩

/-- `dsu_inherit_fd` is all or nothing where there is no exchange, where the exchange is complete, and where it brings
    nothing that shows; and nowhere else. -/
theorem allOrNothing_iff (x : Exchange) (s : DsuSocket) :
    x.AllOrNothing s ↔ ¬x.Made ∨ x.Complete ∨ x.Idle s := by
  by_cases h : x.Made
  · refine ⟨fun ha => Or.inr ?_, fun hc => ?_⟩
    · by_cases hport : 0 < (x.dsuInheritFd s).1
      · obtain ⟨fd, fd', hn, hc, -, hn', hc', -, -⟩ := ha.all hport
        have hsecond : x.second.Whole := ⟨hn', fd', hc'⟩
        refine Or.inl ⟨⟨hn, fd, hc⟩, hsecond, ?_⟩
        by_contra hle
        exact absurd ((port_nonpos_iff h).mpr ⟨fun _ => Int.not_lt.mp hle, fun hnot => absurd hsecond.ports hnot⟩)
          (Int.not_le.mpr hport)
      · exact Or.inr ((idle_iff h).mpr ⟨Int.not_lt.mp hport, ha.nothing (Int.not_lt.mp hport)⟩)
    · rcases hc with hnot | ⟨⟨hn, fd, hc⟩, hsecond, hport⟩ | hidle
      · exact absurd h hnot
      · have hpos : ¬(x.dsuInheritFd s).1 ≤ 0 := fun hle =>
          absurd (((port_nonpos_iff h).mp hle).1 hsecond.ports) (Int.not_le.mpr hport)
        obtain ⟨hn', fd', hc'⟩ := hsecond
        refine ⟨fun _ => ⟨fd, fd', hn, hc, ?_, hn', hc', ?_, ?_⟩, fun hle => absurd hle hpos⟩
        · rw [dsuInheritFd_made h]
          exact Received.recvfd_of_rights hn hc
        · rw [dsuInheritFd_made h]
          exact Received.recvfd_of_rights hn' hc'
        · rw [dsuInheritFd_made h]
      · obtain ⟨hle, hsame⟩ := (idle_iff h).mp hidle
        exact ⟨fun hpos => absurd hle (Int.not_le.mpr hpos), fun _ => hsame⟩
  · refine ⟨fun _ => Or.inl h, fun _ => ⟨fun hpos => ?_, fun _ => ?_⟩⟩
    · rw [dsuInheritFd_not_made h] at hpos
      cases hpos
    · rw [dsuInheritFd_not_made h]
      exact ⟨rfl, rfl⟩

end Exchange

/-- The shadow descriptor arrives whole, and then the connection is lost: `bind` gets the port, and standard input as the
    `comfd`. Where nothing arrives, there is no port, and the record has lost its `comfd` all the same. -/
theorem exchange_not_allOrNothing :
    let x : Exchange := { connect := 0, send := 4, first := ⟨4, .rights 5, 8080⟩, second := ⟨0, .none, 0⟩ }
    let y : Exchange := { x with first := ⟨0, .none, 0⟩ }
    let s := { dsuSocketListInit with fd := 3, shadowfd := 3, port := 8080, comfd := 4 }
    x.dsuInheritFd s = (8080, { s with shadowfd := 5, comfd := 0 }, [4]) ∧ ¬x.AllOrNothing s ∧
    y.dsuInheritFd s = (0, { s with comfd := 0 }, [4]) ∧ ¬y.AllOrNothing s := by
  refine ⟨rfl, fun h => ?_, rfl, fun h => ?_⟩
  · obtain ⟨_, _, -, -, -, hn, -⟩ := h.all (by decide)
    cases hn
  · have hcomfd := (h.nothing (by decide)).2
    cases hcomfd

/-! ### The calls below -/

/-- What the message is to a process. -/
def Received.msg (m : Received) : Msg :=
  if m.n ≤ 0 then .lost
  else match m.control with
    | .none => .bare m.nport
    | .other => .malformed
    | .rights fd => .full fd m.nport

section
variable {K : Kernel} {w : World} {kind : Kind} {fd : Int}

theorem dsuReadFd_of_msg (h : (w.recvmsg K fd kind).1 = m.msg) (recvfd port : Int) :
    (dsuReadFd K w fd recvfd port kind).1 = (m.dsuReadFd recvfd port).2.1 ∧
    (dsuReadFd K w fd recvfd port kind).2.1 = (m.dsuReadFd recvfd port).2.2 := by
  unfold dsuReadFd Received.dsuReadFd
  simp only [h]
  unfold Received.msg
  by_cases hn : m.n ≤ 0
  · simp [hn]
  · simp only [if_neg hn]
    cases m.control <;> exact ⟨rfl, rfl⟩

/-- The exchange that a process makes, from the results of its calls. -/
theorem dsuInheritFd_of_results (hmade : (w.isOpen s.comfd && K.connect w s.comfd) = true ↔ x.Made)
    (hfirst : (w.tick.recvmsg K s.comfd .shadow).1 = x.first.msg)
    (hsecond : ((w.tick.recvmsg K s.comfd .shadow).2.recvmsg K s.comfd .com).1 = x.second.msg) :
    (dsuInheritFd K s w).1 = (x.dsuInheritFd s).1 ∧ (dsuInheritFd K s w).2.1 = (x.dsuInheritFd s).2.1 := by
  by_cases h : x.Made
  · rw [Exchange.dsuInheritFd_made h, dsuInheritFd_eq, if_pos (hmade.mpr h)]
    obtain ⟨hshadowfd, hport⟩ := dsuReadFd_of_msg hfirst s.shadowfd 0
    rw [← dsuReadFd_world K w.tick s.comfd s.shadowfd 0 .shadow] at hsecond
    obtain ⟨hcomfd, hport'⟩ := dsuReadFd_of_msg hsecond 0 (dsuReadFd K w.tick s.comfd s.shadowfd 0 .shadow).2.1
    rw [hport] at hcomfd hport'
    simp only [hshadowfd, hport, hcomfd, hport', and_self]
  · rw [Exchange.dsuInheritFd_not_made h]
    rw [dsuInheritFd_eq, if_neg fun hc => h (hmade.mp hc)]
    exact ⟨rfl, rfl⟩

end

end OpenDSU
