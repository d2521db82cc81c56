import OpenDSU.Message

/-! `dsu_read_fd` takes `dsu_write_fd` back; what it makes of any other message. -/

namespace OpenDSU

/-! ### Bytes -/

namespace CInt

theorem ofBytes_bytes (x : CInt) : ofBytes x.bytes = x := by
  refine BitVec.eq_of_getLsbD_eq fun i hi => ?_
  simp only [ofBytes, bytes, List.getD_cons_zero, List.getD_cons_succ]
  rw [BitVec.getLsbD_append, BitVec.getLsbD_append, BitVec.getLsbD_append]
  simp only [BitVec.getLsbD_extractLsb']
  grind

theorem bytes_ofBytes (a b c d : Byte) : (ofBytes [a, b, c, d]).bytes = [a, b, c, d] := by
  have hbit (i : Nat) : (ofBytes [a, b, c, d]).getLsbD i =
      if i < 8 then a.getLsbD i else if i < 16 then b.getLsbD (i - 8)
      else if i < 24 then c.getLsbD (i - 16) else d.getLsbD (i - 24) := by
    simp only [ofBytes, List.getD_cons_zero, List.getD_cons_succ]
    rw [BitVec.getLsbD_append, BitVec.getLsbD_append, BitVec.getLsbD_append]
    grind
  simp only [bytes, List.cons.injEq, and_true]
  refine ⟨?_, ?_, ?_, ?_⟩ <;>
    · refine BitVec.eq_of_getLsbD_eq fun i hi => ?_
      rw [BitVec.getLsbD_extractLsb', hbit]
      grind

theorem htonl_htonl (x : CInt) : x.htonl.htonl = x := by
  have hswapped : x.htonl.bytes = x.bytes.reverse := bytes_ofBytes _ _ _ _
  rw [htonl, hswapped, List.reverse_reverse, ofBytes_bytes]

theorem ofBytes_append {l : List Byte} (l' : List Byte) (h : l.length = 4) : ofBytes (l ++ l') = ofBytes l := by
  match l, h with
  | [a, b, c, d], _ => rfl

end CInt

/-! ### What `dsu_read_fd` makes of a message -/

/-- The port that the message carries, when all its bytes came. -/
def Message.port (msg : Message) : CInt := (CInt.ofBytes msg.payload).htonl

section Read
variable {msg : Message} (stack : List Byte) (recvfd₀ port₀ : CInt)

theorem Cmsg.len_eq {c : Cmsg} : c.len = cmsgLen 4 ↔ c.data.length = 4 := Nat.add_left_cancel_iff

theorem read_oneDescriptor (h0 : 0 < msg.payload.length) {c : Cmsg} (hc : msg.control = some c)
    (hlevel : c.level = solSocket) (htype : c.type = scmRights) (hlen : c.data.length = 4) :
    dsuReadFdMessage stack (some msg) recvfd₀ port₀ = ((msg.payload.length : Int), CInt.ofBytes c.data,
      (CInt.ofBytes (msg.payload ++ stack.drop msg.payload.length)).htonl) := by
  unfold dsuReadFdMessage
  simp only [hc]
  rw [if_neg (by omega), if_pos (Cmsg.len_eq.mpr hlen), if_neg (not_not_intro hlevel), if_neg (not_not_intro htype)]

theorem read_foreign (h0 : 0 < msg.payload.length) (h : msg.Foreign) :
    dsuReadFdMessage stack (some msg) recvfd₀ port₀ = (-1, -1, port₀) := by
  obtain ⟨c, hc, hlen, hforeign⟩ := h
  unfold dsuReadFdMessage
  simp only [hc]
  rw [if_neg (by omega), if_pos (Cmsg.len_eq.mpr hlen)]
  by_cases hlevel : c.level = solSocket
  · rw [if_neg (not_not_intro hlevel), if_pos fun htype => hforeign ⟨hlevel, htype⟩]
  · rw [if_pos hlevel]

theorem read_bare (h0 : 0 < msg.payload.length) (hone : ¬msg.OneDescriptor) (hforeign : ¬msg.Foreign) :
    dsuReadFdMessage stack (some msg) recvfd₀ port₀ = ((msg.payload.length : Int), -1,
      (CInt.ofBytes (msg.payload ++ stack.drop msg.payload.length)).htonl) := by
  unfold dsuReadFdMessage
  cases hc : msg.control with
  | none =>
    simp only [hc]
    rw [if_neg (by omega)]
  | some c =>
    have hsize : c.data.length ≠ 4 := fun hlen => hforeign
      ⟨c, hc, hlen, fun hrights => hone ⟨c, hc, hrights.1, hrights.2, hlen⟩⟩
    simp only [hc]
    rw [if_neg (by omega), if_neg fun hlen => hsize (Cmsg.len_eq.mp hlen)]

/-- A message in which something came. -/
theorem read_data (h0 : 0 < msg.payload.length) :
    let (n, recvfd, port) := dsuReadFdMessage stack (some msg) recvfd₀ port₀
    (¬msg.OneDescriptor → recvfd = -1) ∧ (msg.Foreign → n = -1) ∧
      (msg.payload.length = 4 → ¬msg.Foreign → n = 4 ∧ port = msg.port) := by
  by_cases hforeign : msg.Foreign
  · rw [read_foreign stack recvfd₀ port₀ h0 hforeign]
    exact ⟨fun _ => rfl, fun _ => rfl, fun _ h => absurd hforeign h⟩
  · have hport (h4 : msg.payload.length = 4) :
        (CInt.ofBytes (msg.payload ++ stack.drop msg.payload.length)).htonl = msg.port :=
      congrArg CInt.htonl (CInt.ofBytes_append _ h4)
    by_cases hone : msg.OneDescriptor
    · obtain ⟨c, hc, hlevel, htype, hlen⟩ := id hone
      rw [read_oneDescriptor stack recvfd₀ port₀ h0 hc hlevel htype hlen]
      exact ⟨fun h => absurd hone h, fun h => absurd h hforeign, fun h4 _ => ⟨congrArg Nat.cast h4, hport h4⟩⟩
    · rw [read_bare stack recvfd₀ port₀ h0 hone hforeign]
      exact ⟨fun _ => rfl, fun h => absurd h hforeign, fun h4 _ => ⟨congrArg Nat.cast h4, hport h4⟩⟩

end Read

/-! ### The round trip -/

theorem rightsCmsg_inj {fd fd' : CInt} (h : rightsCmsg fd = rightsCmsg fd') : fd = fd' := by
  have hbytes : fd.bytes = fd'.bytes := congrArg Cmsg.data h
  rw [← CInt.ofBytes_bytes fd, hbytes, CInt.ofBytes_bytes]

variable {sender receiver after : Int → Option File} {sent got : Message} {accepted : Bool} {sendfd port : CInt}
  {file : File}

theorem read_passed (hsent : dsuWriteFdMessage accepted sendfd port = some sent)
    (hopen : sender sendfd.toInt = some file) (hpassed : Message.Passed sender receiver after sent got)
    (stack : List Byte) (recvfd₀ port₀ : CInt) :
    ∃ recvfd, dsuReadFdMessage stack (some got) recvfd₀ port₀ = (4, recvfd, port) ∧
      receiver recvfd.toInt = none ∧ after recvfd.toInt = some file := by
  unfold dsuWriteFdMessage at hsent
  split at hsent
  · obtain rfl := Option.some.inj hsent
    obtain ⟨n, hcontrol, -, hfree, rfl⟩ := hpassed.control sendfd rfl
    have hpayload : got.payload = port.htonl.bytes := hpassed.payload
    have h4 : got.payload.length = 4 := by rw [hpayload]; rfl
    refine ⟨n, ?_, hfree, (if_pos rfl).trans hopen⟩
    rw [read_oneDescriptor stack recvfd₀ port₀ (by omega) hcontrol rfl rfl rfl, CInt.ofBytes_append _ h4, h4, hpayload,
      CInt.ofBytes_bytes, CInt.htonl_htonl]
    exact congrArg (fun fd : CInt => ((4 : Int), fd, port)) (CInt.ofBytes_bytes n)
  · cases hsent

/-- `dsu_read_fd` gives back what `dsu_write_fd` was given. Of any other message it returns the bytes that came,
with -1 for the descriptor when there is not exactly one, and -1 when the control data are foreign. -/
theorem dsuReadFdMessage_format :
    (∀ (sender receiver after : Int → Option File) (sent got : Message) (accepted : Bool) (sendfd port : CInt)
        (file : File), dsuWriteFdMessage accepted sendfd port = some sent → sender sendfd.toInt = some file →
      Message.Passed sender receiver after sent got → ∀ stack recvfd₀ port₀,
        ∃ recvfd, dsuReadFdMessage stack (some got) recvfd₀ port₀ = (4, recvfd, port) ∧
          receiver recvfd.toInt = none ∧ after recvfd.toInt = some file) ∧
    ∀ (msg : Message) (stack : List Byte) (recvfd₀ port₀ : CInt),
      let (n, recvfd, port) := dsuReadFdMessage stack (some msg) recvfd₀ port₀
      (0 < msg.payload.length → ¬msg.OneDescriptor → recvfd = -1) ∧
        (0 < n → 0 < msg.payload.length ∧ (recvfd ≠ -1 → msg.OneDescriptor)) ∧
        (0 < msg.payload.length → msg.Foreign → n = -1) ∧
        (msg.payload.length = 4 → ¬msg.Foreign → n = 4 ∧ port = msg.port) := by
  refine ⟨fun _ _ _ _ _ _ _ _ _ hsent hopen hpassed => read_passed hsent hopen hpassed,
    fun msg stack recvfd₀ port₀ => ?_⟩
  by_cases h0 : 0 < msg.payload.length
  · obtain ⟨hnone, hforeign, hwhole⟩ := read_data stack recvfd₀ port₀ h0
    exact ⟨fun _ => hnone, fun _ => ⟨h0, fun hrecvfd => by_contra fun hone => hrecvfd (hnone hone)⟩,
      fun _ => hforeign, hwhole⟩
  · have hn : dsuReadFdMessage stack (some msg) recvfd₀ port₀ = ((msg.payload.length : Int), recvfd₀, port₀) := by
      unfold dsuReadFdMessage
      exact if_pos (by omega)
    rw [hn]
    exact ⟨fun h => absurd h h0, fun h => absurd h (by omega), fun h => absurd h h0, fun h => absurd h (by omega)⟩

/-- Socket 3 of the sender arrives under number 5, with port 8080. -/
theorem dsuReadFdMessage_format_socket : ∃ sent got recvfd,
    dsuWriteFdMessage true 3 8080 = some sent ∧
      Message.Passed (fun d => if d = 3 then some ⟨7, .user⟩ else none) (fun _ => none)
        (fun d => if d = 5 then some ⟨7, .user⟩ else none) sent got ∧
      dsuReadFdMessage [] (some got) 0 0 = (4, recvfd, 8080) ∧ recvfd.toInt = 5 := by
  have hpassed : Message.Passed (fun d => if d = 3 then some ⟨7, .user⟩ else none) (fun _ => none)
      (fun d => if d = 5 then some ⟨7, .user⟩ else none)
      { payload := CInt.bytes (CInt.htonl 8080), control := some (rightsCmsg 3), room := by decide }
      { payload := CInt.bytes (CInt.htonl 8080), control := some (rightsCmsg 5), room := by decide } := by
    refine ⟨rfl, fun fd hfd => ⟨5, rfl, by decide, rfl, ?_⟩⟩
    obtain rfl := rightsCmsg_inj (Option.some.inj hfd)
    rfl
  obtain ⟨recvfd, hread, -, hafter⟩ :=
    dsuReadFdMessage_format.1 _ _ _ _ _ true 3 8080 ⟨7, .user⟩ rfl rfl hpassed [] 0 0
  exact ⟨_, _, recvfd, rfl, hpassed, hread, (Option.ite_none_right_eq_some.mp hafter).1⟩

/-- The four bytes of a port and no control data: `dsu_read_fd` returns 4, and no descriptor. -/
theorem bare_port_read : ∃ msg : Message, msg.payload = CInt.bytes (CInt.htonl 8080) ∧ msg.control = none ∧
    ¬msg.OneDescriptor ∧ 0 < (dsuReadFdMessage [] (some msg) 0 0).1 :=
  ⟨{ payload := CInt.bytes (CInt.htonl 8080), control := none, room := by decide }, rfl, rfl,
    fun ⟨_, hc, _⟩ => absurd hc nofun, by decide⟩

/-! ### The exchange of two versions -/

/-- What `dsu_inherit_fd` is told of a call of `dsu_recvmsg`. -/
def Message.received (stack : List Byte) : Option Message → Received
  | none => { n := -1, control := .none, nport := 0 }
  | some msg =>
    { n := msg.payload.length
      control :=
        match msg.control with
        | some c =>
          if c.data.length = 4 then
            if c.level = solSocket ∧ c.type = scmRights then .rights (CInt.ofBytes c.data).toNat else .other
          else .none
        | none => .none
      nport := (CInt.ofBytes (msg.payload ++ stack.drop msg.payload.length)).htonl.toInt }

/-- The descriptors that the kernel puts into a message are not negative. -/
theorem dsuReadFd_received (stack : List Byte) (received : Option Message) (recvfd port : CInt)
    (h : ∀ msg ∈ received, ∀ c ∈ msg.control, (CInt.ofBytes c.data).msb = false) :
    (Message.received stack received).dsuReadFd recvfd.toInt port.toInt =
      let (n, recvfd, port) := dsuReadFdMessage stack received recvfd port
      (n, recvfd.toInt, port.toInt) := by
  cases received with
  | none => rfl
  | some msg =>
    unfold Received.dsuReadFd dsuReadFdMessage Message.received
    simp only
    by_cases h0 : (msg.payload.length : Int) ≤ 0
    · rw [if_pos h0, if_pos h0]
    · rw [if_neg h0, if_neg h0]
      cases hc : msg.control with
      | none => rfl
      | some c =>
        have hfd := BitVec.toInt_eq_toNat_of_msb (h msg rfl c hc)
        simp only [Cmsg.len_eq]
        by_cases hlen : c.data.length = 4
        · by_cases hlevel : c.level = solSocket <;> by_cases htype : c.type = scmRights <;>
            simp [hlen, hlevel, htype, hfd]
        · simp [hlen]

end OpenDSU
