import OpenDSU.Theorems.EpollTransparent
import OpenDSU.Theorems.RegistryRefines

/-! The registry of a bound socket over the calls of a program, and where a program finds its socket registered as
plain epoll would have it. -/

namespace OpenDSU

variable {K : Kernel} {own : List Int} {r : DsuSocket} {p q : Proc} {s t : Registry} {w w' : World} {fd shadowfd : Int}
  {call : Call}

def Call.asks (sockfd : Int) : Call → Option EpollAsk
  | .epollCtl epfd op fd event => if fd = sockfd then some (.ctl epfd op event) else none
  | .epollWait epfd _ _ _ => some (.wait epfd)
  | _ => none

/-- What the program has registered for the socket, by the result of its call. -/
def Call.registers (K : Kernel) (sockfd : Int) (p : Proc) (program : Int → Option EpollEvent) :
    Call → Int → Option EpollEvent
  | .epollCtl epfd op fd event =>
    if fd = sockfd ∧ (OpenDSU.epollCtl K p epfd op fd event).1 then
      Function.update program epfd (registered op event)
    else program
  | _ => program

/-- The process, with what its program has registered for the socket. -/
def programMachine (K : Kernel) (fd : Int) : Machine (Proc × (Int → Option EpollEvent)) Call where
  init a := a.1.Started ∧ a.2 = fun _ => none
  step a call := (a.1.step K call).map fun q => (q, call.registers K fd a.1 a.2)

/-- The program does not close the socket, and names its shadow only where that is the socket itself. -/
def Call.SparesSocket (fd shadowfd : Int) : Call → Prop
  | .close sockfd => sockfd ≠ fd
  | .epollCtl _ _ sockfd _ => sockfd = shadowfd → sockfd = fd
  | _ => True

theorem Call.asks_ctl {epfd : Int} {op : EpollOp} {event : EpollEvent} (h : call.asks fd = some (.ctl epfd op event)) :
    call = .epollCtl epfd op fd event := by
  cases call with
  | epollCtl epfd' op' c event' =>
    simp only [asks] at h
    split at h
    · rename_i hc
      cases h
      rw [hc]
    · cases h
  | _ => cases h

theorem Call.asks_wait {epfd : Int} (h : call.asks fd = some (.wait epfd)) :
    ∃ events maxevents timeout, call = .epollWait epfd events maxevents timeout := by
  cases call with
  | epollCtl epfd' op' c event' =>
    simp only [asks] at h
    split at h <;> cases h
  | epollWait epfd' events maxevents timeout =>
    cases h
    exact ⟨events, maxevents, timeout, rfl⟩
  | _ => cases h

theorem Call.registers_of_none {program : Int → Option EpollEvent} (h : call.asks fd = none) :
    call.registers K fd p program = program := by
  cases call with
  | epollCtl epfd op c event =>
    have hc : c ≠ fd := fun he => by simp [asks, he] at h
    exact if_neg fun hand => hc hand.1
  | _ => rfl

/-- The record, and the registrations as the process has them. -/
def Proc.registry (p : Proc) (r : DsuSocket) (program : Int → Option EpollEvent) : Registry where
  sock := r
  world := p.world
  program := program

/-- A call on the socket finds it registered under its shadow, and a wait puts back what the program has set. -/
def Call.PlainOn (fd : Int) (a : Proc × (Int → Option EpollEvent)) (call : Call) : Prop :=
  ∀ r, dsuSocketsSearchFd a.1.binds fd = some r → match call.asks fd with
    | some (.ctl epfd _ _) => (a.1.registry r a.2).under epfd = []
    | some (.wait epfd) => r.ev.events ≠ 0 → a.2 epfd = some r.ev
    | none => True

/-- A call on the socket is answered as plain epoll answers, and after the call the instances have what the program has
    registered. -/
def Call.TransparentOn (K : Kernel) (fd : Int) (a : Proc × (Int → Option EpollEvent)) (call : Call) : Prop :=
  (∀ epfd op event, call = .epollCtl epfd op fd event →
    (OpenDSU.epollCtl K a.1 epfd op fd event).1 = plainOk op (a.2 epfd).toList) ∧
  ∀ b, (programMachine K fd).step a call = some b → ∀ r, dsuSocketsSearchFd b.1.binds fd = some r →
    ∀ epfd, (b.1.registry r b.2).entries epfd = (b.2 epfd).toList

namespace Registry

/-! ### One call -/

/-- The registry follows a record of the process, whose numbers can be told from the others. -/
structure Follows (fd shadowfd : Int) (s : Registry) (p : Proc) : Prop where
  record : s.sock ∈ p.binds
  shows : s.Shows [fd, shadowfd] s.sock p.world
  isPrivate : p.world.Private [fd, shadowfd]
  distinct : Distinct p.sockets p.binds p.world
  positive : 0 < shadowfd

namespace Follows

theorem names (h : s.Follows fd shadowfd p) : s.sock.fd = fd ∧ s.sock.shadowfd = shadowfd := by
  simpa [DsuSocket.ends] using h.shows.ends

theorem amid (h : s.Follows fd shadowfd p) :
    ∃ pre post, p.binds = pre ++ s.sock :: post ∧ Amid [fd, shadowfd] pre s.sock post p.world := by
  obtain ⟨pre, post, hbinds⟩ := List.append_of_mem h.record
  have hdistinct := h.distinct
  rw [hbinds] at hdistinct
  have hamid := hdistinct.amid (by rw [h.names.2]; exact h.positive) (by rw [h.shows.ends]; exact h.isPrivate)
  rw [h.shows.ends] at hamid
  exact ⟨pre, post, hbinds, hamid⟩

theorem search (h : s.Follows fd shadowfd p) : dsuSocketsSearchFd p.binds fd = some s.sock := by
  obtain ⟨pre, post, hbinds, hamid⟩ := h.amid
  rw [hbinds, ← h.names.1]
  exact hamid.search

/-- A call that asks nothing for the socket goes on besides it. -/
theorem turns (hK : ∀ w, K.epollCtl w = true) (h : s.Follows fd shadowfd p) (hspares : call.Spares p)
    (hsocket : call.SparesSocket fd shadowfd) (hasks : call.asks fd = none) (hs : p.step K call = some q) :
    p.Turns [fd, shadowfd] s.sock q := by
  obtain ⟨pre, post, hbinds, hamid⟩ := h.amid
  obtain ⟨hfd, hshadowfd⟩ := h.names
  have hclear : ∀ r ∈ p.binds, r.Clear [fd, shadowfd] := hbinds ▸ hamid.clear
  have hexit := Proc.step_exited_false hs
  cases call with
  | socket =>
    simp only [Proc.step, hexit, Bool.false_eq_true, ↓reduceIte, Option.some.injEq] at hs
    exact hs ▸ socket_turns h.record h.isPrivate
  | bind sockfd port =>
    simp only [Proc.step, hexit, Bool.false_eq_true, ↓reduceIte, Option.some.injEq] at hs
    have hpos : 0 < fd := hfd ▸ h.distinct.positive s.sock (List.mem_append_right _ h.record)
    exact hs ▸ bind_turns h.record h.isPrivate sockfd port (by simp [hpos, h.positive])
  | accept sockfd =>
    simp only [Proc.step, hexit, Bool.false_eq_true, ↓reduceIte, Option.some.injEq] at hs
    exact hs ▸ accept_turns h.record h.isPrivate sockfd
  | close sockfd =>
    simp only [Proc.step, hexit, Bool.false_eq_true, ↓reduceIte, Option.some.injEq] at hs
    have hne : sockfd ≠ fd := hsocket
    -- A program that spares the library's numbers closes the shadow only where that is the socket.
    have hnot : sockfd ≠ shadowfd := by
      intro he
      have hsame := hspares.2 s.sock h.record (by rw [hshadowfd, he])
      exact hne (by rw [hsame, hfd])
    exact hs ▸ close_turns h.record h.isPrivate (by simp [hne, hnot]) (by rw [hfd]; exact Ne.symm hne)
  | epollCtl epfd op c event =>
    simp only [Proc.step, hexit, Bool.false_eq_true, ↓reduceIte, Option.some.injEq] at hs
    have hne : c ≠ fd := fun he => by simp [Call.asks, he] at hasks
    have hnot : c ≠ shadowfd := fun he => hne (hsocket he)
    have hfdne : s.sock.fd ≠ c := fun he => hne (he.symm.trans hfd)
    -- A later record of the socket is another record, so the event is stored in neither.
    refine hs ▸ epollCtl_turns h.record h.isPrivate hK epfd op event (by simp [hne, hnot]) hfdne fun x hx hxfd => ?_
    have hother : x ∈ pre ++ post := by
      have hx' : x ≠ s.sock := fun he => hne (by rw [← hxfd, he, hfd])
      rw [hbinds] at hx
      simpa [hx'] using hx
    exact (hamid.others x hother).2
  | select nfds sets timeout rounds =>
    obtain ⟨done, hdone, rfl⟩ := Proc.step_select hs
    exact (select_goesOn hclear h.isPrivate hdone).turns h.record
  | ppoll fds timeout =>
    have hq := Proc.step_ppoll hs
    exact hq ▸ (ppoll_goesOn hclear h.isPrivate fds timeout).turns h.record
  | epollWait => cases hasks

theorem turn (h : s.Follows fd shadowfd p) (ht : p.Turns [fd, shadowfd] s.sock q)
    (hq : Distinct q.sockets q.binds q.world) :
    ∃ r', (s.elsewhere r' q.world).Follows fd shadowfd q := by
  obtain ⟨r', hr', hstored⟩ := ht.record
  have hnext := h.shows.elsewhere hstored ht.keeps
  refine ⟨r', ?_, ?_, ht.keeps.isPrivate, hq, h.positive⟩
  · rw [hnext.sock]
    exact hr'
  · rw [hnext.sock]
    exact hnext

/-- `epoll_ctl` on the socket is answered as the registry answers. -/
theorem ctl (hK : ∀ w, K.epollCtl w = true) (h : s.Follows fd shadowfd p) (epfd : Int) (op : EpollOp)
    (event : EpollEvent) :
    (epollCtlBound K epfd op event s.sock s.world).1 = (epollCtl K p epfd op fd event).1 ∧
      ∃ t, s.step K (.ctl epfd op event) = some t ∧ t.Follows fd shadowfd (epollCtl K p epfd op fd event).2 := by
  have hdistinct := epollCtl_distinct (K := K) epfd op fd event h.distinct
  obtain ⟨hok, t, hstep, hshows⟩ := h.shows.ctl hK h.isPrivate epfd op event
  obtain ⟨pre, post, -, hcall⟩ := @epollCtl_bound K s.sock epfd op event p fd h.search
  rw [hcall] at hdistinct ⊢
  refine ⟨hok, t, hstep, ?_, ?_, h.isPrivate.afterCtl .., hdistinct, h.positive⟩
  · rw [hshows.sock]
    simp
  · rw [hshows.sock]
    exact hshows

/-- An `epoll_wait` that returns. -/
theorem wait (hK : ∀ w, K.epollCtl w = true) (hlocks : K.LocksApart) (h : s.Follows fd shadowfd p) (epfd : Int)
    (events : Nat → Event) (maxevents : Nat) (timeout : Option Nat)
    (hlive : (epollWait K epfd events maxevents timeout p).1.exited = false) :
    ∃ as t, (registryMachine K).run s as = some t ∧ as.filterMap RegAct.asks = [.wait epfd] ∧ t.program = s.program ∧
      t.Follows fd shadowfd (epollWait K epfd events maxevents timeout p).1 := by
  obtain ⟨pre, post, hbinds, hamid⟩ := h.amid
  have hdistinct := (epollWait_evolves K p epfd events maxevents timeout).changes.distinct h.distinct
  rw [← (epollWait_evolves K p epfd events maxevents timeout).sockets] at hdistinct
  have hinit := dsuInitializeEvent_goesOn (K := K) (hbinds ▸ hamid.clear) h.isPrivate
  -- The process is let go only before the wait, and a call that returns shows that it has not been.
  have hlives : (dsuInitializeEvent K p).exited = false := by
    by_contra hexited
    rw [Bool.not_eq_false] at hexited
    unfold epollWait at hlive
    simp only [hexited, if_true] at hlive
    cases hlive
  have hrest : (epollWait K epfd events maxevents timeout p).1 =
      (epollRest K epfd events maxevents timeout (dsuInitializeEvent K p)).1 := by
    unfold epollWait
    simp only [hlives, Bool.false_eq_true, if_false]
  rw [hrest] at hdistinct ⊢
  have hgoes : Besides [fd, shadowfd] (pre ++ s.sock :: post, p.world)
      ((dsuInitializeEvent K p).binds, (dsuInitializeEvent K p).world) :=
    hbinds ▸ hinit
  obtain ⟨pre', r', post', hbinds', hr', hamid'⟩ := hamid.besides hgoes
  obtain ⟨as, t, hrun, hasks, hprogram, hmem, hshows, hprivate⟩ := epollRest_runs hK hlocks hamid' hbinds'
    (h.shows.elsewhere hr' hinit.keeps) epfd events maxevents timeout
  -- What is done before the wait is a turn of the registry, and the wait follows it.
  exact ⟨.turn r' (dsuInitializeEvent K p).world :: as, t, hrun, hasks, hprogram, hmem, hshows, hprivate, hdistinct,
    h.positive⟩

end Follows

theorem ne_exited_of_run {calls : List Call} {program program' : Int → Option EpollEvent} {u : Proc}
    (hrun : (programMachine K fd).run (u, program) calls = some (q, program')) (hlive : q.exited = false) :
    u.exited = false := by
  cases calls with
  | nil =>
    cases hrun
    exact hlive
  | cons next calls =>
    simp only [Machine.run, Option.bind_eq_some_iff] at hrun
    obtain ⟨v, hv, -⟩ := hrun
    obtain ⟨_, hv, -⟩ := Option.map_eq_some_iff.mp hv
    exact Proc.step_exited_false hv

section Steps
variable (hK : ∀ w, K.epollCtl w = true) (hlocks : K.LocksApart)
include hK hlocks

/-- A call of the program is a run of the registry, with what the program asks for the socket and is told. -/
theorem step_follows (h : s.Follows fd shadowfd p) (hspares : call.Spares p) (hsocket : call.SparesSocket fd shadowfd)
    (hs : p.step K call = some q) (hlive : q.exited = false) :
    ∃ as t, (registryMachine K).run s as = some t ∧ as.filterMap RegAct.asks = (call.asks fd).toList ∧
      t.program = call.registers K fd p s.program ∧ t.Follows fd shadowfd q := by
  have hdistinct := step_distinct h.distinct hspares hs
  cases hasks : call.asks fd with
  | none =>
    obtain ⟨r', hfollows⟩ := h.turn (h.turns hK hspares hsocket hasks hs) hdistinct
    exact ⟨[.turn r' q.world], _, rfl, rfl, (Call.registers_of_none hasks).symm, hfollows⟩
  | some ask =>
    have hexit := Proc.step_exited_false hs
    cases ask with
    | ctl epfd op event =>
      cases Call.asks_ctl hasks
      simp only [Proc.step, hexit, Bool.false_eq_true, ↓reduceIte, Option.some.injEq] at hs
      obtain ⟨hok, t, hstep, hfollows⟩ := h.ctl hK epfd op event
      refine ⟨[.ctl epfd op event], t, by simp [Machine.run, registryMachine, hstep], rfl, ?_, hs ▸ hfollows⟩
      cases Option.some.inj hstep
      simp only [Call.registers, true_and, ← hok]
      rfl
    | wait epfd =>
      obtain ⟨events, maxevents, timeout, rfl⟩ := Call.asks_wait hasks
      have hq := Proc.step_epollWait hs
      obtain ⟨as, t, hrun, has, hprogram, hfollows⟩ := h.wait hK hlocks epfd events maxevents timeout (hq ▸ hlive)
      exact ⟨as, t, hrun, has, hprogram, hq ▸ hfollows⟩

/-- And a run of calls, with all that the program asks for the socket. -/
theorem run_follows (h : s.Follows fd shadowfd p) {calls : List Call}
    (hc : (programMachine K fd).Steps (fun a call => call.Spares a.1 ∧ call.SparesSocket fd shadowfd) (p, s.program)
      calls)
    {program : Int → Option EpollEvent} (hrun : (programMachine K fd).run (p, s.program) calls = some (q, program))
    (hlive : q.exited = false) :
    ∃ as t, (registryMachine K).run s as = some t ∧ as.filterMap RegAct.asks = calls.filterMap (Call.asks fd) ∧
      t.program = program ∧ t.Follows fd shadowfd q := by
  induction calls generalizing s p with
  | nil =>
    cases hrun
    exact ⟨[], s, rfl, rfl, rfl, h⟩
  | cons call calls ih =>
    simp only [Machine.run, Option.bind_eq_some_iff] at hrun
    obtain ⟨⟨u, program'⟩, hu, hrun⟩ := hrun
    obtain ⟨⟨hspares, hsocket⟩, hrest⟩ := hc _ hu
    obtain ⟨u', hs, he⟩ := Option.map_eq_some_iff.mp hu
    cases he
    obtain ⟨as, t, hfirst, hasks, hprogram, hfollows⟩ := step_follows hK hlocks h hspares hsocket hs
      (ne_exited_of_run hrun hlive)
    rw [← hprogram] at hrest hrun
    obtain ⟨bs, t', hsecond, hasks', hprogram', hfollows'⟩ := ih hfollows hrest hrun
    refine ⟨as ++ bs, t', ?_, ?_, hprogram', hfollows'⟩
    · rw [Machine.run_append, hfirst]
      exact hsecond
    · rw [List.filterMap_append, hasks, hasks', List.filterMap_cons]
      cases call.asks fd <;> rfl

/-! ### Transparency -/

omit hK hlocks in
theorem Follows.entries (h : s.Follows fd shadowfd p) (epfd : Int) :
    (p.registry s.sock s.program).under epfd = s.under epfd ∧
      (p.registry s.sock s.program).entries epfd = s.entries epfd := by
  have hinterest : ∀ d, d = s.sock.fd ∨ d = s.sock.shadowfd → p.world.interest epfd d = s.world.interest epfd d := by
    intro d hd
    refine (h.shows.world.interest epfd d ?_).symm
    rw [h.names.1, h.names.2] at hd
    simpa using hd
  have hunder : (p.registry s.sock s.program).under epfd = s.under epfd := by
    unfold under
    rw [← hinterest _ (Or.inl rfl)]
    rfl
  refine ⟨hunder, ?_⟩
  unfold Registry.entries
  rw [hunder, ← hinterest _ (Or.inr rfl)]
  rfl

omit hK hlocks in
/-- The registry has what the program has registered where the process has. -/
theorem Follows.agrees_iff (h : s.Follows fd shadowfd p) :
    s.Agrees ↔ ∀ epfd, (p.registry s.sock s.program).entries epfd = (s.program epfd).toList := by
  have hopen : ∀ d ∈ [fd, shadowfd], s.world.isOpen d = true := fun d hd =>
    (World.isOpen_congr h.shows.world.fdt d).trans (h.isPrivate.isOpen d hd)
  constructor
  · intro hs epfd
    rw [(h.entries epfd).2, hs.entries]
  · intro hp
    refine ⟨hopen _ (by simp [h.names.1]), hopen _ (by simp [h.names.2]), fun epfd => ?_⟩
    rw [← (h.entries epfd).2, hp]

omit hK hlocks in
/-- Turns leave the registrations of the socket. -/
theorem run_turns {as : List RegAct} (hasks : as.filterMap RegAct.asks = [])
    (hrun : (registryMachine K).run s as = some t) : Keeps s t ∧ ∀ e, Still e s t := by
  induction as generalizing s with
  | nil =>
    cases hrun
    exact ⟨keeps_of_fdt rfl rfl rfl rfl rfl, fun _ _ _ => rfl⟩
  | cons a as ih =>
    cases a with
    | ctl => cases hasks
    | wait => cases hasks
    | turn r w =>
      obtain ⟨hkeeps, hstill⟩ := ih hasks hrun
      have hturn := elsewhere_keeps s r w
      exact ⟨hturn.trans hkeeps, fun e => (elsewhere_still s r w e).trans hturn (hstill e)⟩

omit hK hlocks in
theorem Keeps.agrees_iff (h : Keeps s t) (hstill : ∀ e, Still e s t) : t.Agrees ↔ s.Agrees := by
  have hfd := h.isOpen _ (Or.inl rfl)
  have hshadowfd := h.isOpen _ (Or.inr rfl)
  constructor
  · intro ha
    refine ⟨by rw [← hfd, ← h.fd]; exact ha.fd, by rw [← hshadowfd, ← h.shadowfd]; exact ha.shadowfd, fun e => ?_⟩
    rw [← ((hstill e).entries h).2, ha.entries, h.program]
  · intro ha
    refine ⟨by rw [h.fd, hfd]; exact ha.fd, by rw [h.shadowfd, hshadowfd]; exact ha.shadowfd, fun e => ?_⟩
    rw [((hstill e).entries h).2, ha.entries, h.program]

omit hlocks in
/-- A run with one wait leaves what the program has registered just where the wait does. -/
theorem agrees_of_run_wait {as : List RegAct} {epfd : Int} (hasks : as.filterMap RegAct.asks = [.wait epfd])
    (hrun : (registryMachine K).run s as = some t) (h : s.Agrees) :
    t.Agrees ↔ (s.sock.ev.events ≠ 0 → s.program epfd = some s.sock.ev) := by
  induction as generalizing s with
  | nil => cases hasks
  | cons a as ih =>
    cases a with
    | ctl => cases hasks
    | turn r w =>
      have hkeeps := elsewhere_keeps s r w
      exact ih (s := s.elsewhere r w) hasks hrun ((hkeeps.agrees_iff (elsewhere_still s r w)).mpr h)
    | wait epfd' r w =>
      have hasks : EpollAsk.wait epfd' :: as.filterMap RegAct.asks = [.wait epfd] := hasks
      obtain ⟨he, hnone⟩ := List.cons.inj hasks
      cases he
      obtain ⟨hkeeps, hstill⟩ := run_turns hnone hrun
      have hwait := wait_transparent_iff hK epfd r w h
      rw [hkeeps.agrees_iff hstill, ← hwait]
      have ho := step_opened hK h.opened (a := .wait epfd r w) rfl
      constructor
      · intro ha
        refine ⟨(fun _ _ _ ha => nomatch ha), fun u hu => ?_⟩
        cases Option.some.inj hu
        exact ha.entries
      · exact fun ht => ⟨ho.1, ho.2, ht.2 _ rfl⟩

omit hK hlocks in
/-- Where the registry follows the process, the call is transparent if it is answered as plain epoll answers and the
registry agrees. -/
theorem transparentOn_iff (hs : p.step K call = some q) (ht : t.Follows fd shadowfd q)
    (hprogram : t.program = call.registers K fd p s.program) :
    call.TransparentOn K fd (p, s.program) ↔
      (∀ epfd op event, call = .epollCtl epfd op fd event →
        (epollCtl K p epfd op fd event).1 = plainOk op (s.program epfd).toList) ∧ t.Agrees := by
  have hstep : (programMachine K fd).step (p, s.program) call = some (q, t.program) := by
    rw [hprogram]
    simp [programMachine, hs]
  refine and_congr_right fun _ => ?_
  rw [ht.agrees_iff]
  constructor
  · exact fun h epfd => h _ hstep _ ht.search epfd
  · intro h b hb r hr epfd
    cases hstep.symm.trans hb
    cases ht.search.symm.trans hr
    exact h epfd

omit hK hlocks in
theorem Follows.plainOn_iff (h : s.Follows fd shadowfd p) : call.PlainOn fd (p, s.program) ↔
    match call.asks fd with
    | some (.ctl epfd _ _) => s.under epfd = []
    | some (.wait epfd) => s.sock.ev.events ≠ 0 → s.program epfd = some s.sock.ev
    | none => True := by
  have hone : call.PlainOn fd (p, s.program) ↔ match call.asks fd with
      | some (.ctl epfd _ _) => (p.registry s.sock s.program).under epfd = []
      | some (.wait epfd) => s.sock.ev.events ≠ 0 → s.program epfd = some s.sock.ev
      | none => True := by
    constructor
    · exact fun hp => hp _ h.search
    · intro hp r hr
      cases h.search.symm.trans hr
      exact hp
  rw [hone]
  split
  · rw [(h.entries _).1]
  · rfl
  · rfl

/-- What a program may do while its socket is followed: it spares the numbers of the library and the socket, and the
call does not end the process. -/
structure Allows (K : Kernel) (fd shadowfd : Int) (p : Proc) (call : Call) : Prop where
  spares : call.Spares p
  socket : call.SparesSocket fd shadowfd
  returns : ∀ q, p.step K call = some q → q.exited = false

/-- One call is transparent for the socket just where it is plain, and then the registry agrees again. -/
theorem step_transparent (h : s.Follows fd shadowfd p) (ha : s.Agrees) (hc : Allows K fd shadowfd p call)
    (hs : p.step K call = some q) :
    ∃ t : Registry, t.program = call.registers K fd p s.program ∧ t.Follows fd shadowfd q ∧
      (call.TransparentOn K fd (p, s.program) ↔ call.PlainOn fd (p, s.program)) ∧
      (call.PlainOn fd (p, s.program) → t.Agrees) := by
  have hdistinct := step_distinct h.distinct hc.spares hs
  have hplain : call.PlainOn fd (p, s.program) ↔ _ := h.plainOn_iff
  cases hasks : call.asks fd with
  | none =>
    rw [hasks] at hplain
    obtain ⟨r', hfollows⟩ := h.turn (h.turns hK hc.spares hc.socket hasks hs) hdistinct
    have hprogram : (s.elsewhere r' q.world).program = call.registers K fd p s.program :=
      (Call.registers_of_none hasks).symm
    have hagrees := ((elsewhere_keeps s r' q.world).agrees_iff (elsewhere_still s r' q.world)).mpr ha
    have hanswer : ∀ epfd op event, call ≠ .epollCtl epfd op fd event := by
      rintro epfd op event rfl
      simp [Call.asks] at hasks
    refine ⟨_, hprogram, hfollows, ?_, fun _ => hagrees⟩
    rw [transparentOn_iff hs hfollows hprogram, hplain]
    exact ⟨fun _ => trivial, fun _ => ⟨fun _ _ _ he => absurd he (hanswer _ _ _), hagrees⟩⟩
  | some ask =>
    rw [hasks] at hplain
    have hexit := Proc.step_exited_false hs
    cases ask with
    | ctl epfd op event =>
      cases Call.asks_ctl hasks
      have hq : (epollCtl K p epfd op fd event).2 = q := by simpa [Proc.step, hexit] using hs
      obtain ⟨hok, t, hstep, hfollows⟩ := h.ctl hK epfd op event
      rw [hq] at hfollows
      have hprogram : t.program = (Call.epollCtl epfd op fd event).registers K fd p s.program := by
        cases Option.some.inj hstep
        simp only [Call.registers, true_and, ← hok]
        rfl
      -- The registry and the process give one answer, and have the same entries after it.
      have hiff : (Call.epollCtl epfd op fd event).TransparentOn K fd (p, s.program) ↔
          s.Transparent K (.ctl epfd op event) := by
        rw [transparentOn_iff hs hfollows hprogram]
        constructor
        · rintro ⟨hanswer, hagrees⟩
          refine ⟨?_, fun u hu => ?_⟩
          · rintro _ _ _ ⟨⟩
            rw [hok]
            exact hanswer epfd op event rfl
          · cases hstep.symm.trans hu
            exact hagrees.entries
        · intro ht
          refine ⟨?_, step_agrees hK ha ht hstep⟩
          rintro _ _ _ ⟨⟩
          rw [← hok]
          exact ht.1 epfd op event rfl
      have hctl := ctl_transparent_iff hK epfd op event ha
      refine ⟨t, hprogram, hfollows, hiff.trans (hctl.trans hplain.symm), fun hp => ?_⟩
      exact step_agrees hK ha (hctl.mpr (hplain.mp hp)) hstep
    | wait epfd =>
      obtain ⟨events, maxevents, timeout, rfl⟩ := Call.asks_wait hasks
      have hq := Proc.step_epollWait hs
      obtain ⟨as, t, hrun, has, hprogram, hfollows⟩ := h.wait hK hlocks epfd events maxevents timeout
        (hq ▸ hc.returns q hs)
      rw [hq] at hfollows
      have hagrees := agrees_of_run_wait hK has hrun ha
      have hiff : (Call.epollWait epfd events maxevents timeout).TransparentOn K fd (p, s.program) ↔ t.Agrees := by
        rw [transparentOn_iff hs hfollows hprogram]
        refine ⟨fun ht => ht.2, fun ht => ⟨?_, ht⟩⟩
        rintro _ _ _ ⟨⟩
      exact ⟨t, hprogram, hfollows, hiff.trans (hagrees.trans hplain.symm), fun hp => hagrees.mpr (hplain.mp hp)⟩

/-- The invariant: the registry follows the process, and agrees with what the program has registered. -/
def Agreeing (fd shadowfd : Int) (a : Proc × (Int → Option EpollEvent)) : Prop :=
  ∃ s : Registry, s.Follows fd shadowfd a.1 ∧ s.program = a.2 ∧ s.Agrees

theorem agreeing_step {a b : Proc × (Int → Option EpollEvent)} (h : Agreeing fd shadowfd a)
    (hc : Allows K fd shadowfd a.1 call) (hb : (programMachine K fd).step a call = some b) :
    (call.TransparentOn K fd a ↔ call.PlainOn fd a) ∧ (call.PlainOn fd a → Agreeing fd shadowfd b) := by
  obtain ⟨p, program⟩ := a
  obtain ⟨s, hfollows, rfl, hagrees⟩ := h
  obtain ⟨q, hs, rfl⟩ := Option.map_eq_some_iff.mp hb
  obtain ⟨t, hprogram, hnext, hiff, hagain⟩ := step_transparent hK hlocks hfollows hagrees hc hs
  exact ⟨hiff, fun hp => ⟨t, hnext, hprogram, hagain hp⟩⟩

/-- In a run of calls every one is transparent for the socket if and only if every one is plain. -/
theorem calls_transparent_iff {a : Proc × (Int → Option EpollEvent)} (h : Agreeing fd shadowfd a) {calls : List Call}
    (hc : (programMachine K fd).Steps (fun a call => Allows K fd shadowfd a.1 call) a calls) :
    (programMachine K fd).Steps (Call.TransparentOn K fd) a calls ↔
      (programMachine K fd).Steps (Call.PlainOn fd) a calls := by
  have hone := fun a call b (ha : Agreeing fd shadowfd a) (hallows : Allows K fd shadowfd a.1 call)
    (hs : (programMachine K fd).step a call = some b) => agreeing_step hK hlocks ha hallows hs
  constructor
  · intro ht
    exact Machine.Steps.imp (I := Agreeing fd shadowfd)
      (fun a call b ha hok hs => (hone a call b ha hok.2 hs).2 ((hone a call b ha hok.2 hs).1.mp hok.1))
      (fun a call b ha hok hs => (hone a call b ha hok.2 hs).1.mp hok.1) h (ht.and hc)
  · intro hp
    exact Machine.Steps.imp (I := Agreeing fd shadowfd) (fun a call b ha hok hs => (hone a call b ha hok.2 hs).2 hok.1)
      (fun a call b ha hok hs => (hone a call b ha hok.2 hs).1.mpr hok.1) h (hp.and hc)

end Steps

end Registry

/-! ### Where the registry begins to follow -/

/-- A descriptor that has just been opened has its file to itself. -/
theorem World.Opens.isPrivate {c : Int} {kind : Kind} (h : w.Opens c kind w')
    (hold : ∀ d file, w.fdt d = some file → file.id < w.files) : w'.Private [c, c] where
  isOpen d hd := by
    have hd : d = c := by simpa using hd
    simp [World.isOpen, h.fdt, hd]
  old := h.old hold
  apart d hd b hb f g hf hg := by
    have hd : d = c := by simpa using hd
    have hb : b ≠ c := by simpa using hb
    simp only [h.fdt, hd, if_true, if_neg hb] at hf hg
    cases hf
    exact (hold b g hg).ne'

/-- And it may stand beside another such descriptor. -/
theorem World.Private.pair {c n : Int} {kind : Kind} (h : w.Private [c, c]) (hw : w.Opens n kind w') :
    w'.Private [c, n] where
  isOpen d hd := by
    by_cases hn : d = n
    · simp [World.isOpen, hw.fdt, hn]
    · have hd : d = c := by simpa [hn] using hd
      have hcn : c ≠ n := fun he => hn (hd.trans he)
      simpa [World.isOpen, hw.fdt, hd, hcn] using h.isOpen c (by simp)
  old := hw.old h.old
  apart d hd b hb f g hf hg := by
    simp only [List.mem_cons, List.not_mem_nil, or_false, not_or] at hd hb
    simp only [hw.fdt, if_neg hb.2] at hf hg
    split at hf
    · cases hf
      exact (h.old b g hg).ne'
    · rename_i hn
      rw [hd.resolve_right hn] at hf
      exact h.apart c (by simp) b (by simp [hb.1]) f g hf hg

/-- A record of a process whose numbers can be told apart is followed, where its descriptors have their files to
themselves. -/
theorem follows_registry (hr : r ∈ p.binds) (hw : p.world.Private r.ends) (hd : Distinct p.sockets p.binds p.world)
    (hshadow : 0 < r.shadowfd) (program : Int → Option EpollEvent) :
    (p.registry r program).Follows r.fd r.shadowfd p :=
  ⟨hr, ⟨rfl, rfl, ⟨_, rfl⟩, fun _ _ _ => rfl⟩, hw, hd, hshadow⟩

/-- And it agrees with a program that has registered nothing, where the instances have nothing either. -/
theorem Registry.Follows.agreeing (h : (p.registry r fun _ => none).Follows fd shadowfd p)
    (hnone : ∀ epfd, p.world.interest epfd fd = [] ∧ p.world.interest epfd shadowfd = []) :
    Registry.Agreeing fd shadowfd (p, fun _ => none) := by
  have hfd : r.fd = fd := h.names.1
  have hshadowfd : r.shadowfd = shadowfd := h.names.2
  have hopen := h.isPrivate.isOpen
  refine ⟨_, h, rfl, hopen r.fd (by simp [hfd]), hopen r.shadowfd (by simp [hshadowfd]), fun epfd => ?_⟩
  change (if r.fd = r.shadowfd then [] else p.world.interest epfd r.fd) ++ p.world.interest epfd r.shadowfd = []
  rw [hfd, hshadowfd, (hnone epfd).1, (hnone epfd).2]
  split <;> rfl

/-- The descriptor that comes with a message takes the place of the shadow. -/
theorem dsuInheritFd_isPrivate {s : DsuSocket} {c : Int} (h : w.Private [c, c]) (hshadow : s.shadowfd = c)
    (hcomfd : s.comfd ≠ c) (hpos : 0 < (dsuInheritFd K s w).2.1.shadowfd) :
    (dsuInheritFd K s w).2.2.Private [c, (dsuInheritFd K s w).2.1.shadowfd] := by
  rw [dsuInheritFd_eq] at hpos ⊢
  split
  · rename_i hasked
    rw [if_pos hasked] at hpos
    simp only [Bool.and_eq_true] at hasked hpos ⊢
    have htick := h.tick.isPrivate
    obtain ⟨hfirst, hne⟩ : (dsuReadFd K w.tick s.comfd s.shadowfd 0 .shadow).2.2.Private
        [c, (dsuReadFd K w.tick s.comfd s.shadowfd 0 .shadow).1] ∧
        s.comfd ≠ (dsuReadFd K w.tick s.comfd s.shadowfd 0 .shadow).1 := by
      rcases dsuReadFd_cases K w.tick s.comfd s.shadowfd 0 .shadow with ⟨hsame | hnone, -⟩ | hopens
      · rw [hsame, hshadow]
        exact ⟨(dsuReadFd_keeps htick _ _ _ _).isPrivate, hcomfd⟩
      · omega
      · refine ⟨htick.pair hopens, fun he => ?_⟩
        -- The new number was free, and `comfd` is open.
        have hfree := hopens.free
        rw [← he] at hfree
        have hopen : w.isOpen s.comfd = true := hasked.1
        rw [World.isOpen] at hopen
        simp [World.tick] at hfree
        simp [hfree] at hopen
    have hsecond := dsuReadFd_keeps (K := K) hfirst s.comfd 0 (dsuReadFd K w.tick s.comfd s.shadowfd 0 .shadow).2.1 .com
    exact (hsecond.isPrivate.close (by simp [hcomfd, hne])).isPrivate
  · simp only [hshadow]
    exact h.tick.isPrivate

theorem socket_isPrivate (hold : ∀ d file, p.world.fdt d = some file → file.id < p.world.files)
    (hpos : 0 < (socket K p).1) : (socket K p).2.world.Private [(socket K p).1, (socket K p).1] := by
  have hsocket : (socket K p).1 = (p.world.allot K .user).1 ∧ (socket K p).2.world = (p.world.allot K .user).2 := by
    unfold socket
    simp only
    split <;> exact ⟨rfl, rfl⟩
  rw [hsocket.1] at hpos ⊢
  rw [hsocket.2]
  rcases p.world.allot_cases K .user with ⟨hnone, -⟩ | ⟨c, hc, hopens⟩
  · omega
  · rw [hc]
    exact hopens.isPrivate hold

/-- The registry of a socket that has its file to itself follows its record from `bind` on, if the record has a shadow. -/
theorem bind_follows {sockfd : Int} {x : DsuSocket} (hx : dsuSocketsSearchFd p.sockets sockfd = some x)
    (hd : Distinct p.sockets p.binds p.world) (hw : p.world.Private [sockfd, sockfd]) (port : Nat)
    (program : Int → Option EpollEvent) :
    ∃ r, (bind K p sockfd port).2.binds = p.binds ++ [r] ∧ r.fd = sockfd ∧ (0 < r.shadowfd →
      ((bind K p sockfd port).2.registry r program).Follows sockfd r.shadowfd (bind K p sockfd port).2) := by
  have hdistinct := bind_distinct (K := K) sockfd port hd
  obtain ⟨hmem, hfd⟩ := mem_of_search_fd hx
  have hshadow : x.shadowfd = sockfd := ((hd.unbound x hmem).1).trans hfd
  have hpos : 0 < sockfd := hfd ▸ hd.positive x (List.mem_append_left _ hmem)
  obtain ⟨hallot, hcomfd⟩ := allot_keeps (K := K) hw .com
  -- `comfd` takes a free number, and the socket is open.
  have hne : (p.world.allot K .com).1 ≠ sockfd := by
    rcases hcomfd with hnew | hnone
    · simpa using hnew
    · omega
  have htick := hallot.isPrivate.tick.isPrivate
  have hbound : ∀ {x' : DsuSocket} {w : World}, Bound p x' w (bind K p sockfd port).2 → x'.fd = sockfd →
      (0 < x'.shadowfd → w.Private [sockfd, x'.shadowfd]) →
      ∃ r, (bind K p sockfd port).2.binds = p.binds ++ [r] ∧ r.fd = sockfd ∧ (0 < r.shadowfd →
        ((bind K p sockfd port).2.registry r program).Follows sockfd r.shadowfd (bind K p sockfd port).2) := by
    intro x' w hb hfd' hprivate
    obtain ⟨r, hbinds, hrfd, hrshadow, -⟩ := hb.binds
    refine ⟨r, hbinds, hrfd.trans hfd', fun hr => ?_⟩
    have hends : (bind K p sockfd port).2.world.Private r.ends := by
      rw [DsuSocket.ends, hrfd, hfd', hrshadow]
      exact (hprivate (hrshadow ▸ hr)).congr hb.world.fdt hb.world.files
    have hfollows := follows_registry (by rw [hbinds]; simp) hends hdistinct hr program
    rwa [hrfd.trans hfd'] at hfollows
  rcases bind_cases K p sockfd port with ⟨hnone, -⟩ | ⟨x', hx', hb⟩
  · rw [hx] at hnone
    cases hnone
  cases hx.symm.trans hx'
  rcases hb with ⟨-, hb⟩ | ⟨-, hb⟩
  · refine hbound hb hfd fun _ => ?_
    simpa [hshadow] using htick
  · refine hbound hb ?_ fun hpos' => dsuInheritFd_isPrivate htick hshadow hne hpos'
    rw [dsuInheritFd_eq]
    split <;> exact hfd

/-- A process that has bound its socket 3. -/
example : Registry.Agreeing 3 3 ((bind soloKernel (socket soloKernel .loaded).2 3 8080).2, fun _ => none) := by
  have hsocket : (socket soloKernel .loaded).2.world.Private [3, 3] :=
    socket_isPrivate (K := soloKernel) (fun d file h => (Proc.started_loaded.user d file h).2) (by decide)
  have hdistinct : Distinct _ _ _ := socket_distinct (K := soloKernel) Proc.started_loaded.distinct
  obtain ⟨r, hbinds, -, hfollows⟩ := bind_follows (K := soloKernel) rfl hdistinct hsocket 8080 fun _ => none
  cases hbinds
  exact (hfollows (by decide)).agreeing fun _ => ⟨rfl, rfl⟩

end OpenDSU
