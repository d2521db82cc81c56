import OpenDSU.Serve
import OpenDSU.Theorems.Calls

/-! Whether a request is answered with both descriptors.

The handlers serve the connections in `comfds` also after the record has stopped monitoring and `comfd` is
closed: then the second message is not sent, or it carries what has got the number of `comfd` since. -/

namespace OpenDSU

variable {K : Kernel} {r r' : DsuSocket} {w w' : World}

/-- The kernel's side when a request has been counted and the descriptors are about to be sent. -/
def afterRequest (K : Kernel) (c : Int) (r : DsuSocket) (w : World) : World :=
  let w := ((w.recv K c).2.waitStatus K r.port).2
  w.setStatus r.port (answerSection (w.status r.port) r).1

theorem World.holds_congr (h : w'.fdt = w.fdt) (d : Int) (id : Nat) : w'.holds d id ↔ w.holds d id := by
  unfold World.holds
  rw [h]

/-- What is new has a number that was free. -/
theorem World.Opens.holds_of_holds {fd d : Int} {kind : Kind} {id : Nat} (h : w.Opens fd kind w') (hd : w.holds d id) :
    w'.holds d id := by
  have hne : d ≠ fd := by
    rintro rfl
    simp [World.holds, h.free] at hd
  unfold World.holds
  rw [h.fdt]
  simp only [if_neg hne]
  exact hd

theorem World.Opens.holds_iff {fd : Int} {kind : Kind} {id : Nat} (h : w.Opens fd kind w') (hid : id < w.files)
    (d : Int) : w'.holds d id ↔ w.holds d id := by
  refine ⟨fun hd => ?_, h.holds_of_holds⟩
  unfold World.holds at hd ⊢
  simp only [h.fdt] at hd
  split at hd
  · cases hd
    exact absurd hid (Nat.lt_irrefl _)
  · exact hd

theorem World.Closes.holds_iff {fd : Int} (h : w.Closes fd w') (d : Int) (id : Nat) :
    w'.holds d id ↔ d ≠ fd ∧ w.holds d id := by
  unfold World.holds
  rw [h.fdt]
  by_cases hd : d = fd <;> simp [hd]

/-! ### Files -/

theorem World.FilesApart.same (h : w.FilesApart) (hw : w.Same w') : w'.FilesApart where
  old fd file hfile := by
    rw [hw.files]
    exact h.old fd file (hw.fdt ▸ hfile)
  one fd file hfile hkind fd' hfd' := h.one fd file (hw.fdt ▸ hfile) hkind fd' ((World.holds_congr hw.fdt _ _).mp hfd')

theorem World.FilesApart.opens {c : Int} {kind : Kind} (h : w.FilesApart) (hw : w.Opens c kind w') : w'.FilesApart := by
  have hcases : ∀ {fd file}, w'.fdt fd = some file →
      (fd = c ∧ file = { id := w.files, kind := kind }) ∨ (fd ≠ c ∧ w.fdt fd = some file) := by
    intro fd file hfile
    simp only [hw.fdt] at hfile
    split at hfile
    · exact Or.inl ⟨‹_›, (Option.some.inj hfile).symm⟩
    · exact Or.inr ⟨‹_›, hfile⟩
  refine ⟨fun fd file hfile => ?_, fun fd file hfile hkind fd' hfd' => ?_⟩
  · rw [hw.files]
    rcases hcases hfile with ⟨-, rfl⟩ | ⟨-, hfile⟩
    · exact Nat.lt_succ_self _
    · exact (h.old fd file hfile).trans (Nat.lt_succ_self _)
  · obtain ⟨file', hfile', hid⟩ := Option.map_eq_some_iff.mp hfd'
    rcases hcases hfile with ⟨rfl, rfl⟩ | ⟨-, hfile⟩
    · rcases hcases hfile' with ⟨rfl, -⟩ | ⟨-, hfile'⟩
      · rfl
      · exact absurd hid (h.old fd' file' hfile').ne
    · exact h.one fd file hfile hkind fd' ((hw.holds_iff (h.old fd file hfile) fd').mp hfd')

theorem World.FilesApart.closes {c : Int} (h : w.FilesApart) (hw : w.Closes c w') : w'.FilesApart := by
  have hold : ∀ {fd file}, w'.fdt fd = some file → w.fdt fd = some file := by
    intro fd file hfile
    simp only [hw.fdt] at hfile
    exact (Option.ite_none_left_eq_some.mp hfile).2
  exact ⟨fun fd file hfile => hw.files ▸ h.old fd file (hold hfile), fun fd file hfile hkind fd' hfd' =>
    h.one fd file (hold hfile) hkind fd' ((hw.holds_iff fd' file.id).mp hfd').2⟩

theorem allot_filesApart {kind : Kind} (h : w.FilesApart) : (w.allot K kind).2.FilesApart := by
  rcases w.allot_cases K kind with ⟨-, hw⟩ | ⟨fd, -, hw⟩
  · exact h.same hw
  · exact h.opens hw

theorem dsuReadFd_filesApart {fd recvfd port : Int} {kind : Kind} (h : w.FilesApart) :
    (dsuReadFd K w fd recvfd port kind).2.2.FilesApart := by
  rcases dsuReadFd_cases K w fd recvfd port kind with ⟨-, hw⟩ | hw
  · exact h.same hw
  · exact h.opens hw

theorem dsuInheritFd_filesApart {s : DsuSocket} (h : w.FilesApart) : (dsuInheritFd K s w).2.2.FilesApart := by
  rw [dsuInheritFd_eq]
  split
  · exact (dsuReadFd_filesApart (dsuReadFd_filesApart (h.same w.same_tick))).closes (World.closes_close _ K s.comfd)
  · exact h.same w.same_tick

/-- `bind` adds a record that begins to serve. -/
theorem bind_begins {p : Proc} {sockfd : Int} {s : DsuSocket} (port : Nat) (h : p.world.FilesApart)
    (hs : dsuSocketsSearchFd p.sockets sockfd = some s) (hcomfds : s.comfds = []) :
    ∃ r, (bind K p sockfd port).2.binds = p.binds ++ [r] ∧
      (Server.ofBind p.pgid r (bind K p sockfd port).2.world).Begins := by
  have hbegins : ∀ {s' : DsuSocket} {w : World}, s'.comfds = [] → w.FilesApart →
      Bound p s' w (bind K p sockfd port).2 → ∃ r, (bind K p sockfd port).2.binds = p.binds ++ [r] ∧
        (Server.ofBind p.pgid r (bind K p sockfd port).2.world).Begins := by
    intro s' w hnone hw hb
    obtain ⟨r, hbinds, -, -, -, -, -, hcomfds', hm, -⟩ := hb.binds
    exact ⟨r, hbinds, rfl, hw.same hb.world, hm, hcomfds'.trans hnone⟩
  have hcom : (p.world.allot K .com).2.tick.FilesApart := (allot_filesApart h).same (World.same_tick _)
  rcases bind_cases K p sockfd port with ⟨hnone, -⟩ | ⟨s', hs', hq⟩
  · exact absurd (hs.symm.trans hnone) (by simp)
  · cases hs.symm.trans hs'
    rcases hq with ⟨-, hq⟩ | ⟨-, hq⟩
    · refine hbegins ?_ hcom hq
      exact hcomfds
    · have hinherit : (dsuInheritFd K { s with port := port, comfd := (p.world.allot K .com).1 }
          (p.world.allot K .com).2.tick).2.1.comfds = [] := by
        rw [dsuInheritFd_eq]
        split <;> exact hcomfds
      exact hbegins hinherit (dsuInheritFd_filesApart hcom) hq

namespace Server

/-- The two messages of the record on the connection `c`. -/
def handOver (r : DsuSocket) (c : Int) : List Sys := [.sendmsg c r.shadowfd r.port, .sendmsg c r.comfd r.port]

/-- The answer to a request is the listening socket and the socket of `comfd`, in two messages, or the
    connection is closed. -/
def InFull (K : Kernel) (s : Server) : ServeAct → Prop
  | .answer c => (s.world.recv K c).1 = .request →
    let log := (answerConn K c s.sock s.world).2.2.log
    (log = s.world.log ++ .recv c .request :: handOver s.sock c ∧
      (∃ f ∈ s.shadowFile, s.world.holds s.sock.shadowfd f) ∧ ∃ g ∈ s.comFile, s.world.holds s.sock.comfd g) ∨
    log = s.world.log ++ [.recv c .request, .close c]
  | _ => True

/-- A request comes while the record monitors, `bind` got both sockets, and the kernel takes them for sockets. -/
def Answerable (K : Kernel) (s : Server) : ServeAct → Prop
  | .answer c => (s.world.recv K c).1 = .request →
    s.sock.monitoring = true ∧ s.shadowFile.isSome = true ∧ s.comFile.isSome = true ∧
    let w := afterRequest K c s.sock s.world
    K.getsockopt w s.sock.shadowfd = true ∧
      K.getsockopt (w.record (.sendmsg c s.sock.shadowfd s.sock.port)) s.sock.comfd = true
  | _ => True

/-! ### The sockets of the record -/

/-- `f` is the listening socket of the record, and `g` is open just while the record monitors. -/
structure Serves (f g : Nat) (r : DsuSocket) (w : World) : Prop where
  old : g < w.files
  shadow : w.holds r.shadowfd f
  com : ∀ d, w.holds d g ↔ r.monitoring = true ∧ d = r.comfd
  comfds : r.shadowfd ∉ r.comfds
  apart : r.monitoring = true → r.shadowfd ≠ r.comfd ∧ r.comfd ∉ r.comfds

/-- What `Serves` is about. -/
def serving (r : DsuSocket) : Int × Int × List Int × Bool := (r.shadowfd, r.comfd, r.comfds, r.monitoring)

variable {f g : Nat}

theorem Serves.frame (h : Serves f g r w) (hr : serving r' = serving r) (hfdt : w'.fdt = w.fdt)
    (hfiles : w'.files = w.files) : Serves f g r' w' := by
  simp only [serving, Prod.mk.injEq] at hr
  obtain ⟨hshadowfd, hcomfd, hcomfds, hmonitoring⟩ := hr
  constructor
  · exact hfiles ▸ h.old
  · rw [World.holds_congr hfdt, hshadowfd]
    exact h.shadow
  · intro d
    rw [World.holds_congr hfdt, hmonitoring, hcomfd]
    exact h.com d
  · rw [hshadowfd, hcomfds]
    exact h.comfds
  · rw [hmonitoring, hshadowfd, hcomfd, hcomfds]
    exact h.apart

theorem Serves.alike (h : Serves f g r w) (hr : Alike r r') : Serves f g r' w :=
  h.frame (by simp [serving, hr.shadowfd, hr.comfd, hr.comfds, hr.monitoring]) rfl rfl

/-- With `comfd` its file goes. -/
theorem Serves.quit (h : Serves f g r w) (hm : r.monitoring = true) (hw : w.Closes r.comfd w') :
    Serves f g { r with monitoring := false } w' where
  old := hw.files ▸ h.old
  shadow := (hw.holds_iff _ f).mpr ⟨(h.apart hm).1, h.shadow⟩
  com d := by
    rw [hw.holds_iff, h.com d]
    refine ⟨fun hd => absurd hd.2.2 hd.1, fun hd => ?_⟩
    cases hd.1
  comfds := h.comfds
  apart hm' := by cases hm'

/-- A new descriptor is of a new file. -/
theorem Serves.opens {c : Int} {kind : Kind} (h : Serves f g r w) (hw : w.Opens c kind w') : Serves f g r w' where
  old := by
    rw [hw.files]
    exact h.old.trans (Nat.lt_succ_self _)
  shadow := hw.holds_of_holds h.shadow
  com d := (hw.holds_iff h.old d).trans (h.com d)
  comfds := h.comfds
  apart := h.apart

theorem Serves.accepted {c : Int} (h : Serves f g r w) (hw : w.Opens c .internal w') :
    Serves f g { r with comfds := r.comfds ++ [c] } w' := by
  have hne : ∀ {d : Int} {id : Nat}, w.holds d id → d ≠ c := by
    rintro d id hd rfl
    simp [World.holds, hw.free] at hd
  have hopens := h.opens hw
  refine ⟨hopens.old, hopens.shadow, hopens.com, ?_, fun hm => ⟨(h.apart hm).1, ?_⟩⟩
  · simp [h.comfds, hne h.shadow]
  · simp [(h.apart hm).2, hne ((h.com r.comfd).mpr ⟨hm, rfl⟩)]

/-- Closing what is none of the two leaves them. -/
theorem Serves.closes {c : Int} (h : Serves f g r w) (hw : w.Closes c w') (hshadow : r.shadowfd ≠ c)
    (hcom : r.monitoring = true → r.comfd ≠ c) : Serves f g r w' where
  old := hw.files ▸ h.old
  shadow := (hw.holds_iff _ f).mpr ⟨hshadow, h.shadow⟩
  com d := by
    rw [hw.holds_iff, h.com d]
    refine ⟨And.right, fun hd => ⟨?_, hd⟩⟩
    rw [hd.2]
    exact hcom hd.1
  comfds := h.comfds
  apart := h.apart

theorem Serves.closed {c : Int} (h : Serves f g r w) (hc : c ∈ r.comfds) (hw : w.Closes c w') :
    Serves f g { r with comfds := r.comfds.erase c } w' := by
  have hcloses := h.closes hw (fun he => h.comfds (he ▸ hc)) fun hm he => (h.apart hm).2 (he ▸ hc)
  exact ⟨hcloses.old, hcloses.shadow, hcloses.com, fun hm => h.comfds (List.mem_of_mem_erase hm),
    fun hm => ⟨(h.apart hm).1, fun hmem => (h.apart hm).2 (List.mem_of_mem_erase hmem)⟩⟩

theorem Serves.effect (h : Serves f g r w) (he : Effect (r, w) (r', w')) : Serves f g r' w' := by
  cases he with
  | quiet hr hw => exact (h.alike hr).frame rfl hw.fdt hw.files
  | quit hm hr hw => exact (h.quit hm hw).alike hr
  | accepted c hr hw => exact (h.accepted hw).alike hr
  | closed c hc hr hw => exact (h.closed hc hw).alike hr
  | locked hr hw =>
    have hlocked : Serves f g { r with locked := true } w' := h.frame rfl hw.fdt hw.files
    exact hlocked.alike hr
  | unlocked _ hr hw =>
    have hunlocked : Serves f g { r with locked := false } w' := h.frame rfl hw.fdt hw.files
    exact hunlocked.alike hr

theorem Serves.effects {c c' : DsuSocket × World} (he : Effects c c') (h : Serves f g c.1 c.2) :
    Serves f g c'.1 c'.2 := by
  induction he with
  | refl => exact h
  | tail _ hs ih => exact ih.effect hs

/-! ### Runs -/

/-- Where `bind` got both sockets, the record serves with them. -/
def Sound (s : Server) : Prop := ∀ f ∈ s.shadowFile, ∀ g ∈ s.comFile, Serves f g s.sock s.world

variable {s t : Server}

/-- No step changes what `bind` got, and every step is a change that `Serves` allows. -/
theorem step_sound {a : ServeAct} (h : s.Sound) (hs : s.step K a = some t) : t.Sound := by
  have hto : ∀ {u : Server}, t = u → u.shadowFile = s.shadowFile → u.comFile = s.comFile →
      (∀ {f g}, Serves f g s.sock s.world → Serves f g u.sock u.world) → t.Sound := by
    rintro u rfl hshadow hcom hkeep f hf g hg
    exact hkeep (h f (hshadow ▸ hf) g (hcom ▸ hg))
  cases a with
  | accept => exact hto (Option.some.inj hs).symm rfl rfl (Serves.effects (acceptConn_effects K s.sock s.world))
  | monitor => exact hto (Option.some.inj hs).symm rfl rfl (Serves.effects (dsuMonitorFd_effects K s.sock s.world s.pgid))
  | answer c =>
    obtain ⟨hc, ht⟩ := Option.ite_none_right_eq_some.mp hs
    have hc : c ∈ s.sock.comfds := by simpa using hc
    exact hto (Option.some.inj ht).symm rfl rfl (Serves.effects (answerConn_effects K s.sock s.world hc))
  | closeCom =>
    obtain ⟨hm, ht⟩ := Option.ite_none_right_eq_some.mp hs
    exact hto (Option.some.inj ht).symm rfl rfl fun h => h.quit hm (s.world.closes_close K _)
  | closeConn c =>
    obtain ⟨hc, ht⟩ := Option.ite_none_right_eq_some.mp hs
    have hc : c ∈ s.sock.comfds := by simpa using hc
    exact hto (Option.some.inj ht).symm rfl rfl fun h => h.closed hc (s.world.closes_close K c)
  | opens fd kind =>
    obtain ⟨hfree, ht⟩ := Option.ite_none_right_eq_some.mp hs
    simp only [World.isOpen, Bool.and_eq_true, decide_eq_true_eq, Bool.not_eq_true', Option.isSome_eq_false_iff,
      Option.isNone_iff_eq_none] at hfree
    exact hto (Option.some.inj ht).symm rfl rfl fun h => h.opens ⟨hfree.1, hfree.2, rfl, rfl, rfl, rfl, id⟩
  | closes fd =>
    obtain ⟨howns, ht⟩ := Option.ite_none_left_eq_some.mp hs
    simp only [owns, Bool.or_eq_true, beq_iff_eq, Bool.and_eq_true, not_or, not_and] at howns
    exact hto (Option.some.inj ht).symm rfl rfl fun h =>
      h.closes (s.world.closes_close K fd) (Ne.symm howns.1.1) fun hm => Ne.symm (howns.2 hm)
  | turn r w => exact hto (Option.some.inj hs).symm rfl rfl fun h => h.frame rfl rfl rfl

theorem Begins.sound (h : s.Begins) : s.Sound := by
  intro f hf g hg
  have hbound := h.bound
  rw [hbound] at hf hg
  obtain ⟨file, hfile, rfl⟩ := Option.map_eq_some_iff.mp hf
  obtain ⟨file', hfile', rfl⟩ := Option.map_eq_some_iff.mp hg
  simp only [Option.filter_eq_some_iff, decide_eq_true_eq] at hfile hfile'
  have hshadow : s.world.holds s.sock.shadowfd file.id := congrArg (Option.map File.id) hfile.1
  have hcom : s.world.holds s.sock.comfd file'.id := congrArg (Option.map File.id) hfile'.1
  refine ⟨h.files.old _ _ hfile'.1, hshadow, fun d => ⟨fun hd => ⟨h.monitoring, ?_⟩, fun hd => ?_⟩,
    by simp [h.comfds], fun _ => ⟨fun he => ?_, by simp [h.comfds]⟩⟩
  · exact h.files.one _ _ hfile'.1 (by simp [hfile'.2]) d hd
  · rw [hd.2]
    exact hcom
  · -- The two descriptors were opened for different things.
    have hkinds : file = file' := Option.some.inj (hfile.1.symm.trans (he ▸ hfile'.1))
    rw [hkinds, hfile'.2] at hfile
    simp at hfile

/-! ### The answer to a request -/

theorem dsuWriteFd_sent {fd sendfd port : Int} (h : w.isOpen sendfd = true) (hsock : K.getsockopt w sendfd = true) :
    dsuWriteFd K w fd sendfd port = w.record (.sendmsg fd sendfd port) := by
  simp [dsuWriteFd, h, hsock]

/-- Two messages go out just when both descriptors are open and are taken for sockets. -/
theorem dsuWriteFd_both {c a b port : Int} :
    (dsuWriteFd K (dsuWriteFd K w c a port) c b port).log = w.log ++ [.sendmsg c a port, .sendmsg c b port] ↔
      (w.isOpen a = true ∧ K.getsockopt w a = true) ∧
        (w.record (.sendmsg c a port)).isOpen b = true ∧ K.getsockopt (w.record (.sendmsg c a port)) b = true := by
  constructor
  · intro h
    rw [dsuWriteFd_log, dsuWriteFd_log, List.append_assoc, List.append_cancel_left_eq] at h
    by_cases ha : (w.isOpen a && K.getsockopt w a) = true
    · rw [if_pos ha] at h
      rw [Bool.and_eq_true] at ha
      rw [dsuWriteFd_sent ha.1 ha.2] at h
      refine ⟨ha, Bool.and_eq_true _ _ ▸ ?_⟩
      by_contra hb
      rw [if_neg hb] at h
      cases h
    · have hlen := congrArg List.length h
      rw [if_neg ha] at hlen
      split at hlen <;> simp at hlen
  · rintro ⟨ha, hb⟩
    rw [dsuWriteFd_sent ha.1 ha.2, dsuWriteFd_sent hb.1 hb.2]
    simp [World.record]

/-- Answering a request closes nothing. -/
theorem dsuWriteFd_no_close {c a b port d : Int} :
    (dsuWriteFd K (dsuWriteFd K w c a port) c b port).log ≠ w.log ++ [.close d] := by
  rw [dsuWriteFd_log, dsuWriteFd_log, List.append_assoc, Ne, List.append_cancel_left_eq]
  split <;> split <;> simp

/-- The record keeps its numbers while the request is counted. -/
theorem answerConn_request {c : Int} (h : (w.recv K c).1 = .request) : (answerConn K c r w).2.2 =
    dsuWriteFd K (dsuWriteFd K (afterRequest K c r w) c r.shadowfd r.port) c r.comfd r.port := by
  rw [answerConn_eq, h]
  simp only [answerSection, afterRequest]
  split <;> rfl

theorem afterRequest_log {c : Int} (h : (w.recv K c).1 = .request) :
    (afterRequest K c r w).log = w.log ++ [.recv c .request] := by
  rw [← h]
  rfl

theorem isOpen_of_holds {d : Int} {id : Nat} (h : w.holds d id) : w.isOpen d = true := by
  obtain ⟨file, hfile, -⟩ := Option.map_eq_some_iff.mp h
  simp [World.isOpen, hfile]

theorem inFull_iff (h : s.Sound) (a : ServeAct) : s.InFull K a ↔ s.Answerable K a := by
  cases a with
  | answer c =>
    refine forall_congr' fun hreq => ?_
    have hlog := answerConn_request (K := K) (r := s.sock) hreq
    have hbase := afterRequest_log (K := K) (r := s.sock) hreq
    have hopen : ∀ d, (afterRequest K c s.sock s.world).isOpen d = s.world.isOpen d := fun _ => rfl
    have hsplit : ∀ es, s.world.log ++ .recv c .request :: es = (afterRequest K c s.sock s.world).log ++ es := by
      simp [hbase]
    simp only [hlog, hsplit]
    constructor
    · rintro (⟨hsent, ⟨f, hf, hshadow⟩, g, hg, hcom⟩ | hclosed)
      · obtain ⟨ha, hb⟩ := dsuWriteFd_both.mp hsent
        exact ⟨((h f hf g hg).com _ |>.mp hcom).1, Option.isSome_iff_exists.mpr ⟨f, hf⟩,
          Option.isSome_iff_exists.mpr ⟨g, hg⟩, ha.2, hb.2⟩
      · exact absurd hclosed dsuWriteFd_no_close
    · rintro ⟨hm, hf, hg, ha, hb⟩
      obtain ⟨f, hf⟩ := Option.isSome_iff_exists.mp hf
      obtain ⟨g, hg⟩ := Option.isSome_iff_exists.mp hg
      have hserves := h f hf g hg
      have hcom : s.world.holds s.sock.comfd g := (hserves.com _).mpr ⟨hm, rfl⟩
      refine Or.inl ⟨dsuWriteFd_both.mpr ⟨⟨?_, ha⟩, ?_, hb⟩, ⟨f, hf, hserves.shadow⟩, g, hg, hcom⟩
      · exact (hopen _).trans (isOpen_of_holds hserves.shadow)
      · exact (hopen _).trans (isOpen_of_holds hcom)
  | accept => exact Iff.rfl
  | monitor => exact Iff.rfl
  | closeCom => exact Iff.rfl
  | closeConn c => exact Iff.rfl
  | opens fd kind => exact Iff.rfl
  | closes fd => exact Iff.rfl
  | turn r w => exact Iff.rfl

/-! ### The handlers -/

def ofHandler : ServeAct → Bool
  | .accept | .answer _ | .turn .. => true
  | _ => false

/-- The record comes from one state to the other by what handlers do. -/
def Handled (K : Kernel) (s t : Server) : Prop :=
  ∃ as, (∀ a ∈ as, ofHandler a = true) ∧ (serveMachine K).run s as = some t

/-- The same server in another state. -/
def moved (s : Server) (c : DsuSocket × World) : Server := { s with sock := c.1, world := c.2 }

theorem handled_of_handles {c c' : DsuSocket × World} (h : Handles K c c') (s : Server) :
    Handled K (s.moved c) (s.moved c') := by
  induction h with
  | refl => exact ⟨[], by simp, rfl⟩
  | @tail d d' _ hs ih =>
    obtain ⟨as, has, hrun⟩ := ih
    have hone : ∀ a, ofHandler a = true → (s.moved d).step K a = some (s.moved d') →
        Handled K (s.moved c) (s.moved d') := by
      intro a ha hstep
      refine ⟨as ++ [a], by simpa [or_imp, forall_and, ha] using has, ?_⟩
      rw [Machine.run_append, hrun]
      simp [Machine.run, serveMachine, hstep]
    cases hs with
    | accept r w => exact hone .accept rfl rfl
    | @answer r w c hc =>
      have hc : (s.moved (r, w)).sock.comfds.contains c = true := List.contains_iff_mem.mpr hc
      exact hone (.answer c) rfl (if_pos hc)
    | @unlist r w epollfd c =>
      have hw : w.Same (w.epollCtl K epollfd .del c noEvent true).2 := w.same_epollCtl K epollfd (by simp)
      refine hone (.turn r (w.epollCtl K epollfd .del c noEvent true).2) rfl ?_
      simp only [Server.step, moved, ← hw.fdt, ← hw.files]

/-- A handler, with what it finds ready. -/
inductive Handler where
  | select (pass : SelectPass)
  | poll (fds : Nat → PollFd) (start stop : Nat) (correction : Int)
  | epoll (epollfd : Int) (events : List Event)

/-- What the handler leaves of the record and of the kernel's side. -/
def Handler.serve (K : Kernel) (r : DsuSocket) (w : World) : Handler → DsuSocket × World
  | .select pass =>
    let (r, pass) := dsuHandleConn K r { pass with world := w }
    (r, pass.world)
  | .poll fds start stop correction =>
    let (r, pass) := dsuHandleConnPoll K fds start stop r { world := w, correction := correction }
    (r, pass.world)
  | .epoll epollfd events =>
    let (r, _, w) := dsuHandleConnEpoll K epollfd r (events, w)
    (r, w)

theorem Handler.serve_handles (h : Handler) (r : DsuSocket) (w : World) : Handles K (r, w) (h.serve K r w) := by
  cases h with
  | select pass => exact dsuHandleConn_handles K r { pass with world := w }
  | poll fds start stop correction =>
    exact dsuHandleConnPoll_handles K r fds start stop { world := w, correction := correction }
  | epoll epollfd events => exact dsuHandleConnEpoll_handles K r epollfd (events, w)

/-- Each handler does nothing but accept, answer and take a closed connection out of an epoll instance, which are steps of
    the record, and in a run of a record that `bind` has added every request is answered in full if and only if each comes
    while it can be answered. -/
theorem answersInFull_iff (K : Kernel) :
    (∀ s : Server, ∀ h : Handler, Handles K (s.sock, s.world) (h.serve K s.sock s.world) ∧
      Handled K s (s.moved (h.serve K s.sock s.world))) ∧
    ∀ s as, s.Begins → ((serveMachine K).Steps (InFull K) s as ↔ (serveMachine K).Steps (Answerable K) s as) := by
  refine ⟨fun s h => ?_, fun s as hs => ?_⟩
  · have hhandles := h.serve_handles s.sock s.world (K := K)
    exact ⟨hhandles, handled_of_handles hhandles s⟩
  constructor
  · exact Machine.Steps.imp (I := Sound) (fun _ _ _ h _ => step_sound h)
      (fun _ a _ h ha _ => (inFull_iff h a).mp ha) hs.sound
  · exact Machine.Steps.imp (I := Sound) (fun _ _ _ h _ => step_sound h)
      (fun _ a _ h ha _ => (inFull_iff h a).mpr ha) hs.sound

instance (K : Kernel) (s : Server) : (a : ServeAct) → Decidable (Answerable K s a)
  | .answer _ => inferInstanceAs (Decidable (_ → _))
  | .accept => .isTrue trivial
  | .monitor => .isTrue trivial
  | .closeCom => .isTrue trivial
  | .closeConn _ => .isTrue trivial
  | .opens .. => .isTrue trivial
  | .closes _ => .isTrue trivial
  | .turn .. => .isTrue trivial

theorem loaded_filesApart : Proc.loaded.world.FilesApart where
  old fd file h := (Proc.started_loaded.user fd file h).2
  one fd file h hkind := absurd (Proc.started_loaded.user fd file h).1 hkind

/-- A socket that is bound to port 8080 where no other version runs. -/
def bound8080 : Proc := (bind soloKernel (socket soloKernel .loaded).2 3 8080).2

/-- A new version connects and gets both sockets. -/
theorem request_answered_in_full : ∃ r, bound8080.binds = [r] ∧
    (serveMachine soloKernel).Steps (InFull soloKernel) (.ofBind 1 r bound8080.world) [.accept, .answer 5, .monitor] := by
  have hsocket : (Proc.loaded.world.allot soloKernel .user).2.FilesApart := allot_filesApart loaded_filesApart
  have hfiles : (socket soloKernel .loaded).2.world.FilesApart := hsocket
  have hfind : dsuSocketsSearchFd (socket soloKernel .loaded).2.sockets 3 =
      some { dsuSocketListInit with shadowfd := 3, fd := 3 } := rfl
  obtain ⟨r, hr, hbegins⟩ := bind_begins (K := soloKernel) 8080 hfiles hfind rfl
  cases hr
  exact ⟨_, rfl, ((answersInFull_iff soloKernel).2 _ _ hbegins).mpr (by decide)⟩

/-- A second new version raises the version of the port. -/
def raised : World := { bound8080.world with status := fun _ => { pgid := 2, version := 1, transfer := 0 } }

/-- The old process stops monitoring before it answers the connection 5, which it has accepted: the second message
    is not sent. Where a client has got the number 4 of `comfd` in between, the message carries the client. -/
theorem request_not_answered_in_full : ∃ r s t u v, bound8080.binds = [r] ∧
    (serveMachine soloKernel).run (.ofBind 1 r bound8080.world) [.accept, .turn r raised, .monitor] = some s ∧
    s.step soloKernel (.answer 5) = some t ∧
    t.world.log = s.world.log ++ [.recv 5 .request, .sendmsg 5 3 8080] ∧ ¬InFull soloKernel s (.answer 5) ∧
    s.step soloKernel (.opens 4 .client) = some u ∧ u.step soloKernel (.answer 5) = some v ∧
    v.world.log = u.world.log ++ [.recv 5 .request, .sendmsg 5 3 8080, .sendmsg 5 4 8080] ∧
    ¬InFull soloKernel u (.answer 5) := by
  refine ⟨_, _, _, _, _, rfl, rfl, rfl, rfl, fun h => ?_, rfl, rfl, rfl, fun h => ?_⟩
  · rcases h rfl with ⟨hlog, -⟩ | hlog <;> exact absurd hlog (by decide)
  · rcases h rfl with ⟨-, -, g, hg, hcom⟩ | hlog
    · cases hg
      exact absurd hcom (by decide)
    · exact absurd hlog (by decide)

end Server

end OpenDSU
