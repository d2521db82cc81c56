import OpenDSU.Theorems.Retiring
import OpenDSU.Theorems.InFull
import OpenDSU.Theorems.Visits
import OpenDSU.Theorems.Renaming

/-! The code of one process that serves a port takes the steps of the requests of the port: where the kernel answers as their
state says, accepting a connection, answering one and `dsu_monitor_fd` are runs of steps of the process, and send what these
send. So are opening and closing any other descriptor, also under the number of a closed `comfd`. -/

namespace OpenDSU

/-- What the sections of a port look at in a record. -/
def DsuSocket.marks (r : DsuSocket) : Int × Bool × Bool × Bool := (r.version, r.transfer, r.monitoring, r.locked)

/-- What `dsu_recv` finds on a connection. -/
def Conn.found (x : Conn) : Recv :=
  if x.request then .request
  else if x.stage = .closed ∨ x.stage = .entered then .closed
  else .again

/-- The message of a record on the descriptor `n`, where `com` is what the number `comfd` refers to. -/
def Sys.parcel (r : DsuSocket) (com : Option Endpoint) (n : Int) : Sys → Option Endpoint
  | .sendmsg fd sendfd _ =>
    if fd = n then
      if sendfd = r.shadowfd then some (.listener 0)
      else if sendfd = r.comfd then com
      else none
    else none
  | _ => none

/-- The step is one of a handler or of `dsu_monitor_fd`. -/
def ServeAct.serves : ServeAct → Bool
  | .accept | .answer _ | .monitor => true
  | .closeCom | .closeConn _ | .opens .. | .closes _ | .turn .. => false

/-- The step opens or closes a descriptor that is none of the record. -/
def ServeAct.descriptors : ServeAct → Bool
  | .opens .. | .closes _ => true
  | .accept | .answer _ | .monitor | .closeCom | .closeConn _ | .turn .. => false

/-- The step is one of process `p` in its event calls, or in between on the number of its `comfd`. -/
def RequestAct.isBy (p : Nat) : RequestAct → Bool
  | .accept q _ | .recv q _ | .count q | .writeShadow q | .writeCom q | .monitor q | .reuse q _ => q == p
  | .connect _ | .send _ | .read _ | .hangUp _ | .inherit _ | .fork _ | .setLocked .. | .exit _ => false

namespace RequestState
open Function

/-- The record of a server is that of process `p`, where connection `c` has the number `num c` and no descriptor has the
    number of another. -/
structure Shows (num : Nat → Int) (p : Nat) (o : Host) (a : Server) (s : RequestState) : Prop where
  host : s.hosts p = some o
  idle : o.task = .idle
  pgid : a.pgid = o.pgid
  marks : a.sock.marks = o.sock.marks
  status : a.world.status a.sock.port = s.status
  comfds : a.sock.comfds = o.comfds.map num
  nodup : o.comfds.Nodup
  connected : ∀ c ∈ o.comfds, a.world.isOpen (num c) = true ∧ num c ≠ a.sock.shadowfd ∧ num c ≠ a.sock.comfd
  shadow : a.world.isOpen a.sock.shadowfd = true
  com : a.world.isOpen a.sock.comfd = o.com.isSome
  apart : a.sock.shadowfd ≠ a.sock.comfd

/-- The kernel answers as the state says, and no other process runs in between. Who connects to another socket than that of
    the abstract name is not accepted. -/
structure Tells (K : Kernel) (num : Nat → Int) (o : Host) (a : Server) (s : RequestState) : Prop where
  sem : ∀ w, K.semWait w = true
  status : ∀ w, K.status w a.sock.port = w.status a.sock.port
  socket : ∀ w fd, K.getsockopt w fd = true
  recv : ∀ c x, s.conns c = some x → K.recv a.world (num c) = x.found
  accept : ∀ n, accepted K a.sock a.world = n → n ≠ -1 →
    o.com = some .name ∧ ∃ c x, s.conns c = some x ∧ x.accepted = false ∧ s.oldest c = true ∧ num c = n

/-- The server after a step shows the state after a run of steps of the process, and has sent the messages of the run. -/
def Runs (num : Nat → Int) (p : Nat) (s : RequestState) (o : Host) (a b : Server) : Prop :=
  ∃ as t o' logged, requestMachine.run s as = some t ∧ (∀ act ∈ as, act.isBy p = true) ∧ Shows num p o' b t ∧
    b.world.log = a.world.log ++ logged ∧
    ∀ c x, s.conns c = some x → ∃ y, t.conns c = some y ∧
      y.sent.map (·.fd) = x.sent.map (·.fd) ++ logged.filterMap (Sys.parcel a.sock o.com (num c))

variable {K : Kernel} {num : Nat → Int} {s : RequestState} {p c : Nat} {o : Host} {x : Conn} {a b : Server}
  {r r' : DsuSocket} {w : World}

/-! ### The sections -/

theorem answerSection_marks (st : Status) (h : r'.marks = r.marks) :
    (answerSection st r').1 = (answerSection st r).1 ∧ (answerSection st r').2.marks = (answerSection st r).2.marks := by
  simp only [DsuSocket.marks, Prod.mk.injEq] at h ⊢
  obtain ⟨hv, ht, hm, hl⟩ := h
  unfold answerSection
  rw [ht]
  split
  · exact ⟨rfl, hv, ht, hm, hl⟩
  · exact ⟨rfl, hv, rfl, hm, hl⟩

theorem quitSection_marks (st : Status) (h : r'.marks = r.marks) : r'.quits st = r.quits st ∧
    (quitSection st r').1 = (quitSection st r).1 ∧ (quitSection st r').2.marks = (quitSection st r).2.marks := by
  simp only [DsuSocket.marks, Prod.mk.injEq] at h ⊢
  obtain ⟨hv, ht, hm, hl⟩ := h
  have hq : r'.quits st = r.quits st := by simp only [DsuSocket.quits, hv, hm, hl]
  refine ⟨hq, ?_⟩
  unfold quitSection
  rw [hq]
  split
  · exact ⟨rfl, hv, rfl, rfl, hl⟩
  · exact ⟨rfl, hv, ht, hm, hl⟩

theorem raiseSection_marks (pgid : Int) (st : Status) (h : r'.marks = r.marks) :
    raiseSection pgid st r' = raiseSection pgid st r := by
  simp only [DsuSocket.marks, Prod.mk.injEq] at h
  unfold raiseSection DsuSocket.raises
  rw [h.1, h.2.2.1]

theorem monitorSection_marks (pgid : Int) (st : Status) (h : r'.marks = r.marks) :
    r'.quits st = r.quits st ∧ (monitorSection pgid st r').1 = (monitorSection pgid st r).1 ∧
    (monitorSection pgid st r').2.marks = (monitorSection pgid st r).2.marks := by
  obtain ⟨hq, hst, hmarks⟩ := quitSection_marks st h
  refine ⟨hq, ?_, hmarks⟩
  change raiseSection pgid (quitSection st r').1 (quitSection st r').2 =
    raiseSection pgid (quitSection st r).1 (quitSection st r).2
  rw [hst]
  exact raiseSection_marks pgid _ hmarks

/-- The numbers of a record, which no section changes. -/
def numbers (r : DsuSocket) : Nat × Int × Int × List Int := (r.port, r.shadowfd, r.comfd, r.comfds)

theorem answerSection_numbers (st : Status) (r : DsuSocket) : numbers (answerSection st r).2 = numbers r := by
  unfold answerSection
  split <;> rfl

theorem monitorSection_numbers (pgid : Int) (st : Status) (r : DsuSocket) :
    numbers (monitorSection pgid st r).2 = numbers r := by
  rcases monitorSection_cases pgid st r with ⟨-, he⟩ | ⟨-, -, he⟩ | ⟨-, -, he⟩
  · rw [he]
    rfl
  · rw [he]
  · rw [he]

/-! ### `dsu_monitor_fd` -/

theorem dsuMonitorFd_honest (pgid : Int) (r : DsuSocket) (w : World) (hsem : K.semWait w = true)
    (hst : K.status w r.port = w.status r.port) : dsuMonitorFd K pgid r w =
      ((monitorSection pgid (w.status r.port) r).2,
        (if r.quits (w.status r.port) then (w.waitStatus K r.port).2.close K r.comfd
        else (w.waitStatus K r.port).2).setStatus
          r.port (monitorSection pgid (w.status r.port) r).1) := by
  have hwait : w.waitStatus K r.port = (true, (w.waitStatus K r.port).2) := Prod.ext hsem rfl
  have hread : (w.waitStatus K r.port).2.status r.port = w.status r.port := (if_pos rfl).trans hst
  have hport : (monitorSection pgid (w.status r.port) r).2.port = r.port :=
    congrArg Prod.fst (monitorSection_numbers pgid (w.status r.port) r)
  unfold dsuMonitorFd
  rw [hwait]
  simp only [if_true, hread, hport]

theorem isOpen_close (w : World) (fd d : Int) : (w.close K fd).isOpen d = (!decide (d = fd) && w.isOpen d) := by
  unfold World.isOpen
  rw [(w.closes_close K fd).fdt]
  by_cases hd : d = fd
  · simp [hd]
  · simp [hd]

theorem run_cons {u t : RequestState} {act : RequestAct} {as : List RequestAct} (h : s.step act = some u)
    (hrun : requestMachine.run u as = some t) : requestMachine.run s (act :: as) = some t := by
  rw [Machine.run]
  exact (congrArg (·.bind fun t => requestMachine.run t as) h).trans hrun

theorem run_one {t : RequestState} {act : RequestAct} (h : s.step act = some t) : requestMachine.run s [act] = some t :=
  run_cons h rfl

theorem step_reuse (opened : Bool) (ho : s.hosts p = some o) (hi : o.task = .idle) (hm : o.sock.monitoring = false)
    (hcom : o.com = if opened then none else some .other) : s.step (.reuse p opened) =
      some (s.setHost p { o with com := if opened then some .other else none }) := by
  simp [step, ho, hi, hm, hcom]

theorem monitor_runs (h : Shows num p o a s) (hK : Tells K num o a s) (hs : a.step K .monitor = some b) :
    Runs num p s o a b := by
  obtain rfl : { a with
      sock := (dsuMonitorFd K a.pgid a.sock a.world).1
      world := (dsuMonitorFd K a.pgid a.sock a.world).2 } = b := Option.some.inj hs
  have hrun := run_one (step_monitor h.host h.idle)
  obtain ⟨hq, hst, hmarks⟩ := monitorSection_marks o.pgid s.status h.marks
  have hnumbers := monitorSection_numbers o.pgid s.status a.sock
  rw [dsuMonitorFd_honest (K := K) a.pgid a.sock a.world (hK.sem _) (hK.status _), h.status, h.pgid, hq, hst]
  simp only [numbers, Prod.mk.injEq] at hnumbers
  obtain ⟨hport, hshadow, hcom, hcomfds⟩ := hnumbers
  generalize monitorSection o.pgid s.status a.sock = m at hmarks hport hshadow hcom hcomfds ⊢
  generalize hw : (a.world.waitStatus K a.sock.port).2 = w
  have hopen : ∀ d, w.isOpen d = a.world.isOpen d := fun d => hw ▸ rfl
  have hlog : w.log = a.world.log := hw ▸ rfl
  -- Only `comfd` is closed, and only in the first conditional.
  have left : ∀ d st, ((if o.sock.quits s.status then w.close K a.sock.comfd else w).setStatus a.sock.port st).isOpen d =
      (!(o.sock.quits s.status && decide (d = a.sock.comfd)) && a.world.isOpen d) := by
    intro d st
    change World.isOpen (if o.sock.quits s.status then w.close K a.sock.comfd else w) d = _
    cases o.sock.quits s.status with
    | true => simp [isOpen_close, hopen]
    | false => simp [hopen]
  refine ⟨_, _, _, if o.sock.quits s.status then [.close a.sock.comfd] else [], hrun, by simp [RequestAct.isBy],
    { host := update_self .., idle := h.idle, pgid := rfl, marks := hmarks, status := ?_, comfds := ?_, nodup := h.nodup
      connected := ?_, shadow := ?_, com := ?_, apart := ?_ }, ?_, ?_⟩
  · change World.status (World.setStatus _ _ _) _ = _
    simp only [World.setStatus, hport, if_true]
  · exact hcomfds.trans h.comfds
  · intro c hc
    obtain ⟨hconn, hne, hne'⟩ := h.connected c hc
    refine ⟨?_, fun he => hne (he.trans hshadow), fun he => hne' (he.trans hcom)⟩
    change World.isOpen (World.setStatus _ _ _) _ = true
    rw [left]
    simp [hne', hconn]
  · change World.isOpen (World.setStatus _ _ _) _ = true
    rw [hshadow, left]
    simp [h.apart, h.shadow]
  · change World.isOpen (World.setStatus _ _ _) _ = _
    rw [hcom, left]
    cases o.sock.quits s.status with
    | true => simp
    | false => simp [h.com]
  · exact fun he => h.apart (hshadow.symm.trans (he.trans hcom))
  · change World.log (World.setStatus _ _ _) = _
    split
    · exact (World.close_log ..).trans (congrArg (· ++ _) hlog)
    · exact hlog.trans (List.append_nil _).symm
  · intro c x hx
    refine ⟨x, hx, ?_⟩
    split <;> simp [Sys.parcel]

/-! ### The handlers -/

theorem answer_closed (h : Shows num p o a s) (hnum : Injective num) (hin : c ∈ o.comfds) (hx : s.conns c = some x)
    (hreq : x.request = false) (hclosed : x.stage = .closed ∨ x.stage = .entered)
    (hres : (a.world.recv K (num c)).1 = .closed) : Runs num p s o a { a with
      sock := { a.sock with comfds := a.sock.comfds.erase (num c) }
      world := (a.world.recv K (num c)).2.close K (num c) } := by
  have hstep : s.step (.recv p c) = some (s.setHost p { o with comfds := o.comfds.erase c }) := by
    simp [step, h.host, hx, h.idle, hin, hreq, hclosed]
  have left : ∀ d, ((a.world.recv K (num c)).2.close K (num c)).isOpen d = (!decide (d = num c) && a.world.isOpen d) :=
    fun d => isOpen_close _ _ d
  obtain ⟨-, hne, hne'⟩ := h.connected c hin
  refine ⟨_, _, _, [.recv (num c) .closed, .close (num c)], run_one hstep, by simp [RequestAct.isBy],
    { host := update_self .., idle := h.idle, pgid := h.pgid, marks := h.marks, status := ?_, comfds := ?_
      nodup := h.nodup.erase c, connected := ?_, shadow := ?_, com := ?_, apart := h.apart }, ?_, ?_⟩
  · exact (congrFun (World.close_status ..) _).trans h.status
  · change a.sock.comfds.erase (num c) = _
    rw [h.comfds, List.map_erase hnum]
  · intro d hd
    obtain ⟨hopen, hapart⟩ := h.connected d (List.mem_of_mem_erase hd)
    refine ⟨?_, hapart⟩
    have hdc : num d ≠ num c := fun he => (h.nodup.mem_erase_iff.mp hd).1 (hnum he)
    exact (left _).trans (by simp [hdc, hopen])
  · exact (left _).trans (by simp [hne.symm, h.shadow])
  · exact (left _).trans (by simp [hne'.symm, h.com])
  · change (World.close K _ _).log = _
    rw [World.close_log, ← hres]
    exact List.append_assoc ..
  · intro d y hy
    exact ⟨y, hy, by simp [Sys.parcel]⟩

theorem answer_again (h : Shows num p o a s) (n : Int) (hres : (a.world.recv K n).1 = .again) :
    Runs num p s o a { a with world := (a.world.recv K n).2 } :=
  ⟨[], s, o, [.recv n .again], rfl, by simp, { h with }, congrArg (fun res => a.world.log ++ [.recv n res]) hres,
    fun d y hy => ⟨y, hy, by simp [Sys.parcel]⟩⟩

/-- What the answer to a request leaves, where the kernel answers as the state says. -/
structure Answers (n : Int) (a : Server) (s : RequestState) (o : Host) (r : DsuSocket) (w : World) : Prop where
  record : r = (answerSection s.status a.sock).2
  isOpen : ∀ d, w.isOpen d = a.world.isOpen d
  status : w.status a.sock.port = (answerSection s.status a.sock).1
  log : w.log = a.world.log ++ (.recv n .request :: .sendmsg n a.sock.shadowfd a.sock.port ::
    if o.com.isSome then [.sendmsg n a.sock.comfd a.sock.port] else [])

theorem answers_of_request (h : Shows num p o a s) (hK : Tells K num o a s) {n : Int}
    (hres : (a.world.recv K n).1 = .request) :
    Answers n a s o (answerConn K n a.sock a.world).2.1 (answerConn K n a.sock a.world).2.2 := by
  have hread : ((a.world.recv K n).2.waitStatus K a.sock.port).2.status a.sock.port = s.status :=
    (if_pos rfl).trans ((hK.status _).trans h.status)
  have hsame := (same_dsuWriteFd K (afterRequest K n a.sock a.world) n a.sock.shadowfd a.sock.port).trans
    (same_dsuWriteFd K _ n a.sock.comfd a.sock.port)
  have hfirst := World.isOpen_congr (same_dsuWriteFd K (afterRequest K n a.sock a.world) n a.sock.shadowfd a.sock.port).fdt
  constructor
  · rw [answerConn_eq, hres]
    simp only [hread]
  · intro d
    rw [Server.answerConn_request hres]
    exact World.isOpen_congr hsame.fdt d
  · rw [Server.answerConn_request hres, dsuWriteFd_status, dsuWriteFd_status]
    change (if _ then (answerSection _ _).1 else _) = _
    rw [if_pos rfl, hread]
  · have hsent : ∀ fd, (afterRequest K n a.sock a.world).isOpen fd = a.world.isOpen fd := fun _ => rfl
    rw [Server.answerConn_request hres, dsuWriteFd_log, dsuWriteFd_log, Server.afterRequest_log hres, hfirst,
      hsent, hsent, h.shadow,
      h.com, hK.socket, hK.socket]
    simp

/-- The system calls of a handler that answers a request. -/
theorem run_answer (ho : s.hosts p = some o) (hi : o.task = .idle) (hin : c ∈ o.comfds) (hx : s.conns c = some x)
    (hreq : x.request = true) : ∃ t, requestMachine.run s [.recv p c, .count p, .writeShadow p, .writeCom p] = some t ∧
      t.hosts p = some { o with sock := (answerSection s.status o.sock).2, task := .idle } ∧
      t.status = (answerSection s.status o.sock).1 ∧ t.conns = update s.conns c (some { x with
        request := false
        taker := some p
        sent := x.sent ++ { pid := p, fd := o.shadow } :: o.com.toList.map fun com => { pid := p, fd := com } }) := by
  have hrecv := step_recv ho hx hi hin hreq
  obtain ⟨pgid, sock, shadow, com, comfds, task⟩ := o
  cases com with
  | some com =>
    refine ⟨_, run_cons hrecv (run_cons (step_count (update_self ..) rfl) (run_cons (step_writeShadow (update_self ..) rfl
      (update_self ..)) (run_one (step_writeCom_some (update_self ..) rfl (update_self ..) rfl)))), update_self .., rfl, ?_⟩
    simp [setConn, setHost]
  | none =>
    refine ⟨_, run_cons hrecv (run_cons (step_count (update_self ..) rfl) (run_cons (step_writeShadow (update_self ..) rfl
      (update_self ..)) (run_one (step_writeCom_none (update_self ..) rfl (update_self ..) rfl)))), update_self .., rfl, ?_⟩
    simp [setConn, setHost]

theorem answer_request (h : Shows num p o a s) (hK : Tells K num o a s) (hsound : s.Sound) (hnum : Injective num)
    (hin : c ∈ o.comfds) (hx : s.conns c = some x) (hreq : x.request = true)
    (hres : (a.world.recv K (num c)).1 = .request) : Runs num p s o a { a with
      sock := (answerConn K (num c) a.sock a.world).2.1
      world := (answerConn K (num c) a.sock a.world).2.2 } := by
  obtain ⟨hrecord, hopen, hstatus, hlog⟩ := answers_of_request h hK hres
  generalize (answerConn K (num c) a.sock a.world).2.1 = r,
    (answerConn K (num c) a.sock a.world).2.2 = w at hrecord hopen hstatus hlog ⊢
  subst hrecord
  obtain ⟨hst, hmarks⟩ := answerSection_marks s.status h.marks
  have hnumbers := answerSection_numbers s.status a.sock
  simp only [numbers, Prod.mk.injEq] at hnumbers
  obtain ⟨hport, hshadow, hcom, hcomfds⟩ := hnumbers
  obtain ⟨t, hrun, hhost, hst', hconns⟩ := run_answer h.host h.idle hin hx hreq
  refine ⟨_, t, _, _, hrun, by simp [RequestAct.isBy],
    { host := hhost, idle := rfl, pgid := h.pgid, marks := hmarks, status := ?_, comfds := hcomfds.trans h.comfds
      nodup := h.nodup, connected := ?_, shadow := ?_, com := ?_, apart := ?_ }, hlog, ?_⟩
  · change w.status (answerSection s.status a.sock).2.port = t.status
    rw [hport, hstatus, hst, hst']
  · intro d hd
    obtain ⟨hconn, hne, hne'⟩ := h.connected d hd
    exact ⟨(hopen _).trans hconn, fun he => hne (he.trans hshadow), fun he => hne' (he.trans hcom)⟩
  · change w.isOpen (answerSection s.status a.sock).2.shadowfd = true
    rw [hshadow, hopen, h.shadow]
  · change w.isOpen (answerSection s.status a.sock).2.comfd = _
    rw [hcom, hopen, h.com]
  · exact fun he => h.apart (hshadow.symm.trans (he.trans hcom))
  · intro d y hy
    rw [hconns]
    by_cases hd : d = c
    · subst hd
      cases hx.symm.trans hy
      refine ⟨_, update_self .., ?_⟩
      have hfds : ({ pid := p, fd := o.shadow } :: o.com.toList.map fun com => { pid := p, fd := com } : List Parcel).map
          (·.fd) = o.shadow :: o.com.toList := by
        cases o.com <;> rfl
      rw [List.map_append, hfds, (hsound.hosts p o h.host).shadow]
      cases o.com <;> simp [List.filterMap_cons, Sys.parcel, h.apart.symm]
    · have hne : num c ≠ num d := fun he => hd (hnum he).symm
      refine ⟨y, (update_of_ne hd ..).trans hy, ?_⟩
      cases o.com.isSome <;> simp [List.filterMap_cons, Sys.parcel, hne]

theorem answer_runs {n : Int} (h : Shows num p o a s) (hK : Tells K num o a s) (hsound : s.Sound) (hnum : Injective num)
    (hs : a.step K (.answer n) = some b) : Runs num p s o a b := by
  rw [Server.step] at hs
  split at hs
  case isFalse => cases hs
  rename_i hmem
  obtain ⟨c, hin, rfl⟩ : ∃ c ∈ o.comfds, num c = n := by
    rw [h.comfds] at hmem
    simpa using hmem
  obtain ⟨x, hx, -⟩ := (hsound.hosts p o h.host).comfds c hin
  have hres : (a.world.recv K (num c)).1 = x.found := by
    rw [World.recv, (h.connected c hin).1]
    exact hK.recv c x hx
  cases hreq : x.request with
  | true =>
    obtain rfl := Option.some.inj hs
    exact answer_request h hK hsound hnum hin hx hreq (hres.trans (by simp [Conn.found, hreq]))
  | false =>
    by_cases hclosed : x.stage = .closed ∨ x.stage = .entered
    · have hfound : (a.world.recv K (num c)).1 = .closed := hres.trans (by simp [Conn.found, hreq, hclosed])
      have hruns := answer_closed h hnum hin hx hreq hclosed hfound
      rw [answerConn_eq, hfound] at hs
      exact Option.some.inj hs ▸ hruns
    · have hfound : (a.world.recv K (num c)).1 = .again := hres.trans (by simp [Conn.found, hreq, hclosed])
      have hruns := answer_again h (num c) hfound
      rw [answerConn_eq, hfound] at hs
      exact Option.some.inj hs ▸ hruns

theorem accept_runs (h : Shows num p o a s) (hK : Tells K num o a s) (hsound : s.Sound)
    (hs : a.step K .accept = some b) : Runs num p s o a b := by
  have hlog := a.world.accept_log K a.sock.comfd .internal
  have hstatus := a.world.accept_status K a.sock.comfd .internal
  rw [Server.step, acceptConn_eq] at hs
  obtain rfl := Option.some.inj hs
  rcases a.world.accept_cases K a.sock.comfd .internal with ⟨hnone, hsame⟩ | ⟨n, hn, hopens⟩
  · have hno : accepted K a.sock a.world = -1 := hnone
    rw [hno, if_neg (not_not_intro rfl)]
    exact ⟨[], s, o, [.accept4 a.sock.comfd (-1)], rfl, by simp, { h with
        status := (congrFun hstatus _).trans h.status
        connected := fun d hd => ⟨(World.isOpen_congr hsame.fdt _).trans (h.connected d hd).1, (h.connected d hd).2⟩
        shadow := (World.isOpen_congr hsame.fdt _).trans h.shadow
        com := (World.isOpen_congr hsame.fdt _).trans h.com },
      congrArg (· ++ _) hlog, fun d y hy => ⟨y, hy, by simp [Sys.parcel]⟩⟩
  · have hfree := hopens.free_number
    have hne : n ≠ -1 := by
      have := hopens.nonneg
      omega
    have hacc : accepted K a.sock a.world = n := hn
    obtain ⟨hsome, c, x, hx, hnew, hold, rfl⟩ := hK.accept n hacc hne
    rw [hacc, if_pos hne]
    have hmonitoring : o.sock.monitoring = true := by
      by_contra hm
      exact (hsound.hosts p o h.host).closed (by simpa using hm) hsome
    have hcom : a.world.isOpen a.sock.comfd = true := by rw [h.com, hsome]; rfl
    refine ⟨_, _, _, [.accept4 a.sock.comfd (num c)],
      run_one (step_accept h.host hx h.idle hmonitoring hsome hnew hold), by simp [RequestAct.isBy],
      { host := update_self .., idle := h.idle, pgid := h.pgid, marks := h.marks,
        status := (congrFun hstatus _).trans h.status
        comfds := ?_, nodup := ?_, connected := ?_, shadow := hopens.isOpen_mono h.shadow
        com := (hopens.isOpen_mono hcom).trans (by rw [hsome]; rfl), apart := h.apart }, congrArg (· ++ _) hlog, ?_⟩
    · change a.sock.comfds ++ [num c] = _
      rw [h.comfds, List.map_append]
      rfl
    · have hout : c ∉ o.comfds := fun hin => hfree.ne (h.connected c hin).1 rfl
      exact List.nodup_append'.mpr ⟨h.nodup, List.nodup_singleton c, by simpa using hout⟩
    · intro d hd
      rcases List.mem_append.mp hd with hd | hd
      · exact ⟨hopens.isOpen_mono (h.connected d hd).1, (h.connected d hd).2⟩
      · cases List.mem_singleton.mp hd
        exact ⟨hopens.isOpen_self, hfree.ne h.shadow, hfree.ne hcom⟩
    · intro d y hy
      by_cases hd : d = c
      · subst hd
        cases hx.symm.trans hy
        exact ⟨_, update_self .., by simp [Sys.parcel]⟩
      · exact ⟨y, (update_of_ne hd ..).trans hy, by simp [Sys.parcel]⟩

/-! ### The other processes -/

/-- The record of a process is its own. -/
theorem others_host {t : RequestState} {act : RequestAct} (hsound : s.Sound) (ho : s.hosts p = some o)
    (hby : act.isBy p = false) (hlock : ∀ locked, act ≠ .setLocked p locked) (hexit : act ≠ .exit p)
    (hs : s.step act = some t) : t.hosts p = some o := by
  -- What another process stores.
  have stored : ∀ {q o'}, q ≠ p → update s.hosts q o' p = some o := fun hq => (update_of_ne hq.symm ..).trans ho
  have other : ∀ {q : Nat}, (q == p) = false → q ≠ p := fun hq => by simpa using hq
  cases act with
  | connect pgid =>
    obtain ⟨-, rfl⟩ := connect_inv hs
    exact ho
  | send c =>
    obtain ⟨x, -, -, rfl⟩ := send_inv hs
    exact ho
  | accept q c =>
    obtain ⟨o', x, -, -, -, -, -, -, -, rfl⟩ := accept_inv hs
    exact stored (other hby)
  | recv q c =>
    obtain ⟨o', x, -, -, -, -, ⟨-, rfl⟩ | ⟨-, -, rfl⟩⟩ := recv_inv hs
    · exact stored (other hby)
    · exact stored (other hby)
  | count q =>
    obtain ⟨o', c, -, -, rfl⟩ := count_inv hs
    exact stored (other hby)
  | writeShadow q =>
    obtain ⟨o', c, x, -, -, -, rfl⟩ := writeShadow_inv hs
    exact stored (other hby)
  | writeCom q =>
    obtain ⟨o', c, x, -, -, -, ⟨com, -, rfl⟩ | ⟨-, rfl⟩⟩ := writeCom_inv hs
    · exact stored (other hby)
    · exact stored (other hby)
  | read c =>
    obtain ⟨x, m, -, -, -, -, rfl⟩ := read_inv hs
    exact ho
  | hangUp c =>
    obtain ⟨x, -, -, -, rfl⟩ := hangUp_inv hs
    exact ho
  | inherit c =>
    obtain ⟨x, shadow, com, hx, hclosed, -, rfl⟩ := inherit_inv hs
    refine stored fun hc => ?_
    have hnone := (hsound.conns c x hx).alone (by simp [hclosed])
    rw [hc, ho] at hnone
    cases hnone
  | fork q =>
    obtain ⟨o', -, -, rfl⟩ := fork_inv hs
    exact stored (hsound.hosts p o ho).started.ne'
  | monitor q =>
    obtain ⟨o', -, -, rfl⟩ := monitor_inv hs
    exact stored (other hby)
  | setLocked q locked =>
    obtain ⟨o', -, -, rfl⟩ := setLocked_inv hs
    exact stored fun hq => hlock locked (by rw [hq])
  | reuse q opened =>
    obtain ⟨o', -, -, -, -, rfl⟩ := reuse_inv hs
    exact stored (other hby)
  | exit q =>
    obtain ⟨o', -, -, -, -, -, rfl⟩ := exit_inv hs
    exact stored fun hq => hexit (by rw [hq])

/-- What the others do, and the lock of the process, is a turn. -/
theorem turn_shows {t : RequestState} {act : RequestAct} (h : Shows num p o a s) (hsound : s.Sound)
    (hby : act.isBy p = false) (hexit : act ≠ .exit p) (hs : s.step act = some t) :
    ∃ r w b o', a.step K (.turn r w) = some b ∧ Shows num p o' b t := by
  by_cases hlock : ∃ locked, act = .setLocked p locked
  · obtain ⟨locked, rfl⟩ := hlock
    obtain ⟨o', ho', -, rfl⟩ := setLocked_inv hs
    obtain rfl : o = o' := Option.some.inj (h.host.symm.trans ho')
    have hmarks := h.marks
    simp only [DsuSocket.marks, Prod.mk.injEq] at hmarks
    exact ⟨{ a.sock with locked := locked }, a.world, _, _, rfl, { h with
      host := update_self ..
      marks := by simp only [DsuSocket.marks, hmarks] }⟩
  · have ho := others_host hsound h.host hby (fun locked he => hlock ⟨locked, he⟩) hexit hs
    exact ⟨a.sock, a.world.setStatus a.sock.port t.status, _, o, rfl, { h with host := ho, status := if_pos rfl }⟩

/-! ### Other descriptors -/

/-- A descriptor that is opened under the number of a closed `comfd` is what this number refers to. -/
theorem opens_runs {n : Int} {kind : Kind} (h : Shows num p o a s) (hsound : s.Sound)
    (hs : a.step K (.opens n kind) = some b) :
    Runs num p s o a b := by
  rw [Server.step] at hs
  split at hs
  case isFalse => cases hs
  rename_i hfree
  obtain ⟨-, hclosed⟩ : 0 ≤ n ∧ a.world.isOpen n = false := by simpa using hfree
  obtain rfl := Option.some.inj hs
  have hopen : ∀ d, (a.world.install n kind).isOpen d = (decide (d = n) || a.world.isOpen d) := by
    intro d
    by_cases hd : d = n <;> simp [World.isOpen, World.install, hd]
  have mono : ∀ {d}, a.world.isOpen d = true → (a.world.install n kind).isOpen d = true := fun hd => by simp [hopen, hd]
  have sent : ∀ {t : RequestState}, t.conns = s.conns → ∀ d y, s.conns d = some y → ∃ z, t.conns d = some z ∧
      z.sent.map (·.fd) = y.sent.map (·.fd) ++ ([] : List Sys).filterMap (Sys.parcel a.sock o.com (num d)) :=
    fun ht d y hy => ⟨y, ht ▸ hy, by simp⟩
  by_cases hn : a.sock.comfd = n
  · have hnone : o.com = none := by simpa [hn, hclosed] using h.com.symm
    have hm : o.sock.monitoring = false := by
      by_contra hm
      exact (hsound.hosts p o h.host).opened (by simpa using hm) hnone
    refine ⟨_, _, _, [], run_one (step_reuse true h.host h.idle hm hnone), by simp [RequestAct.isBy],
      { h with host := update_self .., connected := fun d hd => ?_, shadow := mono h.shadow, com := ?_ },
      (List.append_nil _).symm, sent rfl⟩
    · exact ⟨mono (h.connected d hd).1, (h.connected d hd).2⟩
    · simp [hopen, hn]
  · refine ⟨[], s, o, [], rfl, by simp,
      { h with connected := fun d hd => ?_, shadow := mono h.shadow, com := ?_ }, (List.append_nil _).symm, sent rfl⟩
    · exact ⟨mono (h.connected d hd).1, (h.connected d hd).2⟩
    · simp [hopen, hn, h.com]

theorem closes_runs {n : Int} (h : Shows num p o a s) (hsound : s.Sound) (hs : a.step K (.closes n) = some b) :
    Runs num p s o a b := by
  rw [Server.step] at hs
  split at hs
  case isTrue => cases hs
  rename_i howns
  obtain rfl := Option.some.inj hs
  obtain ⟨hshadow, hcomfds, hcom⟩ : n ≠ a.sock.shadowfd ∧ n ∉ a.sock.comfds ∧
      (a.sock.monitoring = true → n ≠ a.sock.comfd) := by
    simpa [Server.owns, not_or, and_assoc] using howns
  have hconn : ∀ d ∈ o.comfds, num d ≠ n := by
    rintro d hd rfl
    exact hcomfds (by rw [h.comfds]; exact List.mem_map_of_mem hd)
  have hconnected : ∀ d ∈ o.comfds, (a.world.close K n).isOpen (num d) = true ∧ num d ≠ a.sock.shadowfd ∧
      num d ≠ a.sock.comfd := by
    intro d hd
    refine ⟨?_, (h.connected d hd).2⟩
    rw [isOpen_close]
    simp [hconn d hd, (h.connected d hd).1]
  have hshadow' : (a.world.close K n).isOpen a.sock.shadowfd = true := by
    rw [isOpen_close]
    simp [hshadow.symm, h.shadow]
  have hstatus : (a.world.close K n).status a.sock.port = s.status := (congrFun (World.close_status ..) _).trans h.status
  have sent : ∀ {t : RequestState}, t.conns = s.conns → ∀ d y, s.conns d = some y → ∃ z, t.conns d = some z ∧
      z.sent.map (·.fd) = y.sent.map (·.fd) ++ [Sys.close n].filterMap (Sys.parcel a.sock o.com (num d)) :=
    fun ht d y hy => ⟨y, ht ▸ hy, by simp [Sys.parcel]⟩
  -- A descriptor whose number is not that of an open `comfd`.
  have elsewhere : (n = a.sock.comfd → o.com = none) → Runs num p s o a { a with world := a.world.close K n } := by
    intro hnone
    refine ⟨[], s, o, [.close n], rfl, by simp,
      { h with status := hstatus, connected := hconnected, shadow := hshadow', com := ?_ }, World.close_log .., sent rfl⟩
    rw [isOpen_close, h.com]
    by_cases hn : a.sock.comfd = n
    · simp [hnone hn.symm]
    · simp [hn]
  by_cases hn : n = a.sock.comfd
  · have hm : o.sock.monitoring = false := by
      have hmarks := h.marks
      simp only [DsuSocket.marks, Prod.mk.injEq] at hmarks
      rw [← hmarks.2.2.1]
      by_contra hm
      exact hcom (by simpa using hm) hn
    cases hc : o.com with
    | none => exact elsewhere fun _ => hc
    | some com =>
      have hp := hsound.hosts p o h.host
      rcases hp.com com hc with rfl | rfl
      · exact absurd hc (hp.closed hm)
      · subst hn
        refine ⟨_, _, _, [.close a.sock.comfd], run_one (step_reuse false h.host h.idle hm hc),
          by simp [RequestAct.isBy],
          { h with host := update_self .., status := hstatus, connected := hconnected, shadow := hshadow', com := ?_ },
          World.close_log .., sent rfl⟩
        simp [isOpen_close]
  · exact elsewhere fun he => absurd he hn

/-- What a server does for the other versions is a run of steps of its process, which sends what the server sends, and so is
    what its process does with other descriptors; what the others do meanwhile is a turn. -/
theorem serve_refines (hr : requestMachine.Reachable s) (hnum : Injective num) (h : Shows num p o a s) :
    (∀ act b, act.serves = true → Tells K num o a s → a.step K act = some b → Runs num p s o a b) ∧
    (∀ act b, act.descriptors = true → a.step K act = some b → Runs num p s o a b) ∧
    ∀ act t, act.isBy p = false → act ≠ .exit p → s.step act = some t →
      ∃ r w b o', a.step K (.turn r w) = some b ∧ Shows num p o' b t := by
  obtain ⟨hsound, -⟩ := sound_of_reachable hr
  refine ⟨fun act b hact hK hs => ?_, fun act b hact hs => ?_, fun act t hby hexit hs => turn_shows h hsound hby hexit hs⟩
  · cases act with
    | accept => exact accept_runs h hK hsound hs
    | answer n => exact answer_runs h hK hsound hnum hs
    | monitor => exact monitor_runs h hK hs
    | closeCom | closeConn | opens | closes | turn => cases hact
  · cases act with
    | opens n kind => exact opens_runs h hsound hs
    | closes n => exact closes_runs h hsound hs
    | accept | answer | monitor | closeCom | closeConn | turn => cases hact

/-- The first version with a connection that it has accepted under the number 5. -/
def firstServer (st : Status) : Server where
  pgid := 5
  sock := { (bindFirstSection 5 { dsuSocketListInit with port := 8080 }).2 with shadowfd := 3, comfd := 4, comfds := [5] }
  world := {
    fdt := fun fd => if fd = 3 ∨ fd = 4 ∨ fd = 5 then some { id := fd.toNat, kind := .com } else none
    files := 6
    regs := []
    status := fun _ => st
    workers := 1
    held := []
    log := []
    clock := 0 }
  shadowFile := some 3
  comFile := some 4

theorem serve_refines_request : ∃ s o b, requestMachine.run (start 8080 5) [.connect 7, .send 1, .accept 0 1] = some s ∧
    (firstServer s.status).step { soloKernel with accept := fun _ _ => false } (.answer 5) = some b ∧
    b.world.log = [.recv 5 .request, .sendmsg 5 3 8080, .sendmsg 5 4 8080] ∧
    Runs (fun c => (c : Int) + 4) 0 s o (firstServer s.status) b := by
  obtain ⟨s, hs, o, x, ho, hsock, hi, hpgid, hcomfds, hcom, hx, hfound, hone⟩ : ∃ s,
      requestMachine.run (start 8080 5) [.connect 7, .send 1, .accept 0 1] = some s ∧ ∃ o x, s.hosts 0 = some o ∧
        (firstServer s.status).sock.marks = o.sock.marks ∧ o.task = .idle ∧ o.pgid = 5 ∧
        o.comfds = [1] ∧ o.com = some .name ∧ s.conns 1 = some x ∧ x.found = .request ∧ ∀ c, c ≠ 1 → s.conns c = none :=
    ⟨_, rfl, _, _, rfl, rfl, rfl, rfl, rfl, rfl, rfl, rfl, fun c hc => by simp [setConn, setHost, start, hc]⟩
  have hr : requestMachine.Reachable s := .of_run _ (.init ⟨8080, 5, by decide, rfl⟩) hs
  have hshows : Shows (fun c => (c : Int) + 4) 0 o (firstServer s.status) s := by
    refine { host := ho, idle := hi, pgid := hpgid.symm, marks := hsock, status := rfl, comfds := ?_, nodup := ?_
             connected := ?_, shadow := rfl, com := ?_, apart := ?_ }
    · rw [hcomfds]
      rfl
    · rw [hcomfds]
      exact List.nodup_singleton 1
    · intro c hc
      rw [hcomfds, List.mem_singleton] at hc
      subst hc
      exact ⟨rfl, by simp [firstServer], by simp [firstServer]⟩
    · rw [hcom]
      rfl
    · simp [firstServer]
  have htells : Tells { soloKernel with accept := fun _ _ => false } (fun c => (c : Int) + 4) o
      (firstServer s.status) s := by
    refine { sem := fun _ => rfl, status := fun _ => rfl, socket := fun _ _ => rfl, recv := ?_
             accept := fun n hn hne => ?_ }
    · intro c y hy
      by_cases hc : c = 1
      · subst hc
        cases hx.symm.trans hy
        exact hfound.symm
      · rw [hone c hc] at hy
        cases hy
    · exact absurd hn.symm hne
  obtain ⟨b, hb, hlog⟩ : ∃ b,
      (firstServer s.status).step { soloKernel with accept := fun _ _ => false } (.answer 5) = some b ∧
      b.world.log = [.recv 5 .request, .sendmsg 5 3 8080, .sendmsg 5 4 8080] := ⟨_, rfl, rfl⟩
  have hnum : Injective fun c : Nat => (c : Int) + 4 := fun c d he => Int.ofNat.inj ((Int.add_left_inj 4).mp he)
  exact ⟨s, o, b, hs, hb, hlog, (serve_refines hr hnum hshows).1 _ b rfl htells hb⟩

end RequestState
end OpenDSU
