import PureOS.Net.Receive

set_option autoImplicit false

/-!
# Net: the frames that make the kernel panic

The lengths in a packet are checked against each other only in part: a header longer
than 20 bytes, a total length that ends inside the header and a UDP length below 8
all make a slice of the source panic.  Every other frame is handled in every state of
the stack, whatever comes in meanwhile.
-/

namespace PureOS.Net

open PureOS.Foundation

/-! ## The fields of a packet -/

/-- The length of the IPv4 header. -/
def ipIhl (packet : Packet) : Nat := (packet[0]?.getD 0).toNat % 16 * 4

/-- The first 20 bytes without the checksum. -/
def ipCheck (packet : Packet) : Packet := ((packet.take 20).set 10 0).set 11 0

/-- The payload of a packet whose header has 20 bytes. -/
def ipData (packet : Packet) : Packet := (packet.take (beAt 2 packet 2)).drop 20

/-- The checks of `handle_ipv4` on the header let the packet through. -/
def Ipv4Header (packet : Packet) : Prop :=
  20 ≤ packet.length ∧ (packet[0]?.getD 0).toNat / 16 = 4 ∧ 20 ≤ ipIhl packet ∧
    ipIhl packet ≤ packet.length

/-- The checks on the checksum and the total length let it through, too. -/
def Ipv4Accepted (packet : Packet) : Prop :=
  ipChecksum (ipCheck packet) = beAt 2 packet 10 ∧ beAt 2 packet 2 ≤ packet.length

/-- The packets on which `handle_ipv4` panics. -/
def HarmfulIpv4 (packet : Packet) : Prop :=
  Ipv4Header packet ∧
    (20 < ipIhl packet ∨
      Ipv4Accepted packet ∧
        ((packet[9]? = some ipProtoTcp ∨ packet[9]? = some ipProtoUdp) ∧ beAt 2 packet 2 < 20 ∨
          packet[9]? = some ipProtoUdp ∧ 8 ≤ (ipData packet).length ∧
            beAt 2 (ipData packet) 4 < 8))

/-- The frames on which `handle_rx` panics. -/
def Harmful (frame : Packet) : Prop :=
  14 ≤ frame.length ∧ beAt 2 frame 12 = ethTypeIp ∧ HarmfulIpv4 (frame.drop 14)

instance (packet : Packet) : Decidable (Ipv4Header packet) :=
  inferInstanceAs (Decidable (_ ∧ _))

instance (packet : Packet) : Decidable (Ipv4Accepted packet) :=
  inferInstanceAs (Decidable (_ ∧ _))

instance (packet : Packet) : Decidable (HarmfulIpv4 packet) :=
  inferInstanceAs (Decidable (_ ∧ _))

instance (frame : Packet) : Decidable (Harmful frame) :=
  inferInstanceAs (Decidable (_ ∧ _))

/-- A poll that finds no harmful frame. -/
def Poll.Harmless : Poll → Prop
  | .late => True
  | .frame bytes => ¬Harmful (bytes.take rxFrameSize)

namespace Stack

/-- No poll to come finds a harmful frame. -/
def Calm (s : Stack) : Prop := ∀ p ∈ s.polls, p.Harmless

/-- The computation ends without a panic, and has used some of the polls. -/
def Returns {α : Type} (r : Except Fault α) (after : α → Stack) (s : Stack) : Prop :=
  ∃ a, r = .ok a ∧ (after a).polls <:+ s.polls

theorem Calm.of_suffix {s s' : Stack} (h : s.Calm) (hs : s'.polls <:+ s.polls) : s'.Calm :=
  fun p hp => h p (hs.subset hp)

/-- `rx` handles every harmless frame while less than `k` polls are left. -/
def Serves (rx : Packet → Stack → Except Fault Stack) (k : Nat) : Prop :=
  ∀ frame s, s.polls.length < k → s.Calm → ¬Harmful frame → Returns (rx frame s) id s

/-! ## Sending -/

theorem polls_nicSend (frame : Packet) (s : Stack) : (s.nicSend frame).2.polls = s.polls := by
  rw [nicSend]
  split <;> rfl

theorem polls_sendEth (dst : Mac) (ethertype : Nat) (payload : Packet) (s : Stack) :
    (s.sendEth dst ethertype payload).2.polls = s.polls := by
  rw [sendEth]
  split
  · rfl
  · exact polls_nicSend _ s

theorem polls_arpReply (targetMac : Mac) (target : Ip) (s : Stack) :
    (s.arpReply targetMac target).polls = s.polls :=
  polls_sendEth _ _ _ s

theorem polls_deliver (callback : UdpCallback) (payload : Packet) (src : Ip) (port : Nat) (s : Stack) :
    (s.deliver callback payload src port).polls = s.polls := by
  cases callback <;> rfl

section

variable {rx : Packet → Stack → Except Fault Stack} {k n : Nat}

theorem waitArp_returns (hrx : Serves rx k) (ip : Ip) {s : Stack} (hn : s.polls.length < n)
    (hk : s.polls.length ≤ k) (hcalm : s.Calm) : Returns (waitArp rx ip n s) Prod.snd s := by
  induction n generalizing s with
  | zero => omega
  | succ n ih =>
      rw [waitArp]
      split
      · exact ⟨_, rfl, List.suffix_rfl⟩
      · rename_i rest hpolls
        exact ⟨_, rfl, hpolls ▸ List.suffix_cons _ rest⟩
      · rename_i bytes rest hpolls
        rw [hpolls, List.length_cons] at hn hk
        let s₁ : Stack := { s with polls := rest }
        have hsuffix : s₁.polls <:+ s.polls := hpolls ▸ List.suffix_cons _ rest
        have hcalm₁ : s₁.Calm := hcalm.of_suffix hsuffix
        have hframe : ¬Harmful (bytes.take rxFrameSize) :=
          hcalm (.frame bytes) (by rw [hpolls]; exact List.mem_cons_self)
        have hstep : Returns (handlePolled rx bytes s₁) id s₁ := by
          rw [handlePolled]
          split
          · exact hrx _ s₁ (show rest.length < k by omega) hcalm₁ hframe
          · exact ⟨s₁, rfl, List.suffix_rfl⟩
        obtain ⟨s₂, hs₂, hsuffix₂⟩ := hstep
        have hlen : s₂.polls.length ≤ rest.length := hsuffix₂.length_le
        rw [hs₂, bind_ok]
        split
        · exact ⟨_, rfl, hsuffix₂.trans hsuffix⟩
        · obtain ⟨r, hr, hsuffix₃⟩ := ih (s := s₂) (by omega) (by omega) (hcalm₁.of_suffix hsuffix₂)
          exact ⟨r, hr, (hsuffix₃.trans hsuffix₂).trans hsuffix⟩

theorem arpTries_returns (hrx : Serves rx k) (ip : Ip) (tries : Nat) {s : Stack}
    (hn : s.polls.length < n) (hk : s.polls.length ≤ k) (hcalm : s.Calm) :
    Returns (arpTries rx n ip tries s) Prod.snd s := by
  induction tries generalizing s with
  | zero => exact ⟨_, rfl, List.suffix_rfl⟩
  | succ tries ih =>
      have hpolls : (s.arpRequest ip).polls = s.polls := polls_sendEth ..
      obtain ⟨⟨mac, s₁⟩, hs₁, hsuffix⟩ := waitArp_returns (n := n) (s := s.arpRequest ip) hrx ip
        (by rwa [hpolls]) (by rwa [hpolls]) (hcalm.of_suffix (hpolls ▸ List.suffix_rfl))
      rw [hpolls] at hsuffix
      rw [arpTries, hs₁, bind_ok]
      have hlen := hsuffix.length_le
      simp only at hlen hsuffix
      cases mac with
      | some mac => exact ⟨_, rfl, hsuffix⟩
      | none =>
          obtain ⟨r, hr, hsuffix'⟩ := ih (by omega) (by omega) (hcalm.of_suffix hsuffix)
          exact ⟨r, hr, hsuffix'.trans hsuffix⟩

theorem sendIpv4_returns (hrx : Serves rx k) (dst : Ip) (proto : UInt8) {payload : Packet} (id : Nat)
    {s : Stack} (hn : s.polls.length < n) (hk : s.polls.length ≤ k) (hcalm : s.Calm)
    (hlen : payload.length ≤ 1484) : Returns (sendIpv4 rx n dst proto payload id s) Prod.snd s := by
  have hresolve : Returns (targetMac rx n dst s) Prod.snd s := by
    rw [targetMac]
    split
    · exact ⟨_, rfl, List.suffix_rfl⟩
    · rw [arpResolve]
      split
      · exact ⟨_, rfl, List.suffix_rfl⟩
      · exact arpTries_returns hrx dst 3 hn hk hcalm
  obtain ⟨⟨mac, s₁⟩, hs₁, hsuffix⟩ := hresolve
  rw [sendIpv4, if_neg (by omega), hs₁, bind_ok]
  cases mac with
  | none => exact ⟨_, rfl, hsuffix⟩
  | some mac =>
      refine ⟨s₁.nicSend (ethFrame mac s₁.mac ethTypeIp _), if_neg (by omega), ?_⟩
      rw [polls_nicSend]
      exact hsuffix

/-- Every segment is handled in every state of the connection. -/
theorem onSegment_ok (conn : TcpConn) (data : Packet) : ∃ r, conn.onSegment data = .ok r := by
  rw [TcpConn.onSegment]
  split
  · exact ⟨_, rfl⟩
  · rename_i hlen
    have hpayload (hdrLen : Nat) : ∃ payload, tcpPayload data hdrLen = .ok payload := by
      rw [tcpPayload]
      split
      · exact ⟨_, cut_ok (by omega) (Nat.le_refl _)⟩
      · exact ⟨_, rfl⟩
    obtain ⟨payload, hpayload⟩ := hpayload (data[12].toNat / 16 * 4)
    rw [be_ok (by omega), be_ok (by omega), byte_ok (by omega), byte_ok (by omega)]
    simp only [bind_ok, hpayload]
    split
    · exact ⟨_, rfl⟩
    · split
      · split
        · exact ⟨_, rfl⟩
        · split <;> exact ⟨_, rfl⟩
      · exact ⟨_, rfl⟩

theorem handleTcp_returns (hrx : Serves rx k) (data : Packet) (src : Ip) {s : Stack}
    (hn : s.polls.length < n) (hk : s.polls.length ≤ k) (hcalm : s.Calm) :
    Returns (handleTcp rx n data src s) id s := by
  obtain ⟨⟨conn, answer⟩, hconn⟩ := onSegment_ok s.tcp data
  rw [handleTcp, hconn, bind_ok]
  cases answer with
  | false => exact ⟨_, rfl, List.suffix_rfl⟩
  | true =>
      let segment : Packet := toBE 2 conn.srcPort ++ (toBE 2 conn.dstPort ++ (toBE 4 conn.seq ++
        (toBE 4 conn.ack ++ ([0x50, tcpFlagAck, 0xFF, 0xFF, 0, 0, 0, 0] ++ []))))
      have hbuild : buildTcp conn.seq conn.ack tcpFlagAck [] conn.srcPort conn.dstPort =
          .ok segment := if_pos (by simp)
      have hshort : (withChecksum segment (tcpChecksum s.ip conn.dstIp segment)).length ≤ 1484 := by
        simp [withChecksum, segment]
      obtain ⟨⟨sent, s₁⟩, hs₁, hsuffix⟩ := sendIpv4_returns (n := n) hrx conn.dstIp ipProtoTcp 0
        (s := { s with
          tcp := conn
          log := s.log ++ [.segment s.tcp src data] ++ [.built conn
            (withChecksum segment (tcpChecksum s.ip conn.dstIp segment))] }) hn hk hcalm hshort
      refine ⟨s₁, ?_, hsuffix⟩
      simp only [sendTcpRaw, hbuild, bind_ok, hs₁]
      rfl

end

/-! ## Receiving -/

theorem handleUdp_ok {data : Packet} (src : Ip) (s : Stack)
    (h : data.length < 8 ∨ 8 ≤ beAt 2 data 4) :
    ∃ s', handleUdp data src s = .ok s' ∧ s'.polls = s.polls := by
  rw [handleUdp]
  split
  · exact ⟨s, rfl, rfl⟩
  · rename_i hlen
    rw [be_ok (by omega), be_ok (by omega), be_ok (by omega)]
    simp only [bind_ok]
    split
    · exact ⟨s, rfl, rfl⟩
    · rename_i hle
      rw [cut_ok (by omega) (by omega), bind_ok]
      exact ⟨_, rfl, dispatch_keeps polls (fun _ s => polls_deliver _ _ _ _ s) _ _ s⟩

theorem handleUdp_panic {data : Packet} (src : Ip) (s : Stack) (hlen : 8 ≤ data.length)
    (hshort : beAt 2 data 4 < 8) : handleUdp data src s = .error .panic := by
  rw [handleUdp, if_neg (by omega), be_ok (by omega), be_ok (by omega), be_ok (by omega)]
  simp only [bind_ok]
  rw [if_neg (by omega), cut_panic (Or.inl hshort)]
  rfl

section

variable {rx : Packet → Stack → Except Fault Stack} {k n : Nat} {packet : Packet}

theorem handleIpv4_ignores (s : Stack) (h : ¬Ipv4Header packet) :
    handleIpv4 rx n packet s = .ok s := by
  rw [handleIpv4]
  split
  · rfl
  · rename_i hlen
    have hfirst : packet[0]?.getD 0 = packet[0] := by
      rw [List.getElem?_eq_getElem (by omega), Option.getD_some]
    rw [byte_ok (by omega), bind_ok]
    rw [Ipv4Header, ipIhl, hfirst] at h
    split
    · rfl
    · rename_i hversion
      rw [if_pos (by omega)]
      rfl

/-- What is left of `handle_ipv4` behind the checks on the header. -/
theorem handleIpv4_header (s : Stack) (h : Ipv4Header packet) :
    handleIpv4 rx n packet s =
      if 20 < ipIhl packet then .error .panic
      else if ¬Ipv4Accepted packet then .ok s
      else if packet[9]? = some ipProtoUdp then
        if beAt 2 packet 2 < 20 then .error .panic
        else do
          let src ← array 4 packet 12
          handleUdp (ipData packet) src s
      else if packet[9]? = some ipProtoTcp then
        if beAt 2 packet 2 < 20 then .error .panic
        else do
          let src ← array 4 packet 12
          handleTcp rx n (ipData packet) src s
      else .ok s := by
  obtain ⟨hlen, hversion, hihl, hle⟩ := h
  have hfirst : packet[0]?.getD 0 = packet[0] := by
    rw [List.getElem?_eq_getElem (by omega), Option.getD_some]
  have hhead : (Vector.ofFn fun k : Fin 20 => packet[0 + k.val]).toList = packet.take 20 := by
    apply List.ext_getElem
    · simp
      omega
    · intro i hi hi'
      simp
  have hcheck : ((packet.take 20).set 10 0).set 11 0 = ipCheck packet := rfl
  have hchecklen : (ipCheck packet).length = 20 := by
    simp [ipCheck]
    omega
  rw [ipIhl, hfirst] at hihl hle
  rw [handleIpv4, if_neg (by omega), byte_ok (by omega), bind_ok]
  rw [hfirst] at hversion
  simp only [hversion, ne_eq, not_true_eq_false, if_false]
  rw [if_neg (by omega), be_ok (by omega), bind_ok, array_ok (by omega), bind_ok, hhead, hcheck]
  rw [show packet[0].toNat % 16 * 4 = ipIhl packet by rw [ipIhl, hfirst]] at hihl hle ⊢
  split
  · rename_i hlong
    rw [cut_panic (Or.inr (by omega))]
    rfl
  · rename_i hshort
    have hihl20 : ipIhl packet = 20 := by omega
    have hall : ((ipCheck packet).take 20).drop 0 = ipCheck packet := by
      rw [List.drop_zero, List.take_of_length_le (by omega)]
    rw [hihl20, cut_ok (by omega) (by omega), bind_ok, hall]
    have hproto : packet[9]? = some packet[9] := List.getElem?_eq_getElem (by omega)
    rcases Decidable.em (ipChecksum (ipCheck packet) = beAt 2 packet 10) with hsum | hsum
    · rw [if_neg (by simpa using hsum), be_ok (by omega), bind_ok]
      split
      · rename_i htotal
        rw [if_pos (by rw [Ipv4Accepted]; omega)]
        rfl
      · rename_i htotal
        rw [if_neg (by rw [Ipv4Accepted]; simp only [not_not]; exact ⟨hsum, by omega⟩),
          byte_ok (by omega), bind_ok, array_ok (by omega), bind_ok, hproto]
        simp only [Option.some.injEq, bind_ok]
        have hdata {α : Type} (f : Packet → Except Fault α) : (do
            let data ← cut packet 20 (beAt 2 packet 2)
            f data) = if beAt 2 packet 2 < 20 then .error .panic else f (ipData packet) := by
          split
          · rename_i hbad
            rw [cut_panic (Or.inl hbad)]
            rfl
          · rename_i hgood
            rw [cut_ok (by omega) (by omega), bind_ok, ipData]
        rw [hdata, hdata]
        rfl
    · rw [if_pos hsum, if_pos fun h => hsum h.1]
      rfl

theorem handleIpv4_returns (hrx : Serves rx k) {s : Stack} (hn : s.polls.length < n)
    (hk : s.polls.length ≤ k) (hcalm : s.Calm) (h : ¬HarmfulIpv4 packet) :
    Returns (handleIpv4 rx n packet s) id s := by
  rcases Decidable.em (Ipv4Header packet) with hheader | hheader
  · have hlen := hheader.1
    rw [handleIpv4_header s hheader]
    rw [HarmfulIpv4] at h
    have hihl : ¬20 < ipIhl packet := fun hlong => h ⟨hheader, Or.inl hlong⟩
    rw [if_neg hihl]
    split
    · exact ⟨s, rfl, List.suffix_rfl⟩
    · rename_i haccepted
      rw [not_not] at haccepted
      split
      · rename_i hudp
        have htotal : ¬beAt 2 packet 2 < 20 := fun hbad =>
          h ⟨hheader, Or.inr ⟨haccepted, Or.inl ⟨Or.inr hudp, hbad⟩⟩⟩
        have hudplen : (ipData packet).length < 8 ∨ 8 ≤ beAt 2 (ipData packet) 4 := by
          by_contra hbad
          exact h ⟨hheader, Or.inr ⟨haccepted, Or.inr ⟨hudp, by omega, by omega⟩⟩⟩
        rw [if_neg htotal, array_ok (by omega), bind_ok]
        obtain ⟨s', hs', hpolls⟩ := handleUdp_ok (Vector.ofFn fun k => packet[12 + k.val]) s hudplen
        exact ⟨s', hs', hpolls ▸ List.suffix_rfl⟩
      · split
        · rename_i htcp
          have htotal : ¬beAt 2 packet 2 < 20 := fun hbad =>
            h ⟨hheader, Or.inr ⟨haccepted, Or.inl ⟨Or.inl htcp, hbad⟩⟩⟩
          rw [if_neg htotal, array_ok (by omega), bind_ok]
          exact handleTcp_returns hrx _ _ hn hk hcalm
        · exact ⟨s, rfl, List.suffix_rfl⟩
  · rw [handleIpv4_ignores s hheader]
    exact ⟨s, rfl, List.suffix_rfl⟩

theorem handleIpv4_panic (s : Stack) (h : HarmfulIpv4 packet) :
    handleIpv4 rx n packet s = .error .panic := by
  obtain ⟨hheader, hbad⟩ := h
  have hlen := hheader.1
  rw [handleIpv4_header s hheader]
  rcases hbad with hlong | ⟨haccepted, hbad⟩
  · rw [if_pos hlong]
  · rcases Decidable.em (20 < ipIhl packet) with hlong | hihl
    · rw [if_pos hlong]
    rw [if_neg hihl, if_neg (not_not_intro haccepted)]
    rcases hbad with ⟨hproto, htotal⟩ | ⟨hudp, hdata, hshort⟩
    · rcases hproto with htcp | hudp
      · have hne : ¬packet[9]? = some ipProtoUdp := by
          rw [htcp]
          decide
        rw [if_neg hne, if_pos htcp, if_pos htotal]
      · rw [if_pos hudp, if_pos htotal]
    · rw [if_pos hudp]
      split
      · rfl
      · rw [array_ok (by omega), bind_ok, handleUdp_panic _ s hdata hshort]

theorem receive_returns (hrx : Serves rx k) {frame : Packet} {s : Stack} (hn : s.polls.length < n)
    (hk : s.polls.length ≤ k) (hcalm : s.Calm) (h : ¬Harmful frame) :
    Returns (receive rx n frame s) id s := by
  rw [receive]
  split
  · exact ⟨s, rfl, List.suffix_rfl⟩
  · rename_i hlen
    rw [be_ok (by omega), bind_ok, cut_ok (by omega) (Nat.le_refl _), bind_ok, List.take_length]
    split
    · rw [handleArp]
      split
      · exact ⟨s, rfl, List.suffix_rfl⟩
      · rename_i harp
        rw [be_ok (by omega), array_ok (by omega), array_ok (by omega), array_ok (by omega)]
        simp only [bind_ok]
        split
        · refine ⟨_, rfl, ?_⟩
          simp only [id, polls_arpReply, List.suffix_rfl]
        · exact ⟨_, rfl, List.suffix_rfl⟩
    · split
      · rename_i hip
        exact handleIpv4_returns hrx hn hk hcalm fun hbad => h ⟨by omega, hip, hbad⟩
      · exact ⟨s, rfl, List.suffix_rfl⟩

theorem receive_panic {frame : Packet} (s : Stack) (h : Harmful frame) :
    receive rx n frame s = .error .panic := by
  obtain ⟨hlen, hip, hbad⟩ := h
  rw [receive, if_neg (by omega), be_ok (by omega), bind_ok, cut_ok (by omega) (Nat.le_refl _), bind_ok,
    List.take_length, if_neg (by rw [hip]; decide), if_pos hip, handleIpv4_panic s hbad]

end

/-- With enough fuel every harmless frame is handled. -/
theorem handleRx_serves (n : Nat) : Serves (handleRx (n + 1)) n := by
  induction n with
  | zero => exact fun _ _ h => absurd h (Nat.not_lt_zero _)
  | succ n ih =>
      intro frame s hs hcalm h
      exact receive_returns ih (by omega) (by omega) hcalm h

/-- While no harmful frame is waiting, `handle_rx` returns exactly on the harmless frames;
on the others it panics in every state. -/
theorem handleRx_returns_iff {frame : Packet} {s : Stack} (hcalm : s.Calm) :
    ((∃ n s', handleRx n frame s = .ok s') ↔ ¬Harmful frame) ∧
      (Harmful frame → ∀ n, handleRx (n + 1) frame s = .error .panic) := by
  refine ⟨⟨?_, fun h => ?_⟩, fun hbad n => receive_panic s hbad⟩
  · rintro ⟨n, s', hs'⟩ hbad
    cases n with
    | zero => cases hs'
    | succ n =>
        rw [handleRx, receive_panic s hbad] at hs'
        cases hs'
  · obtain ⟨s', hs', _⟩ := handleRx_serves (s.polls.length + 1) frame s (Nat.lt_succ_self _) hcalm h
    exact ⟨_, s', hs'⟩

/-- A UDP datagram of 9 bytes in an IPv4 packet without options. -/
def shortDatagram : Packet :=
  ethFrame (.replicate 6 0xFF) (.replicate 6 2) ethTypeIp
    (ipv4Header (ip4 10 0 2 2) (ip4 10 0 2 15) ipProtoUdp 29 0 ++ [0, 53, 0, 53, 0, 9, 0, 0, 7])

theorem handleRx_returns_iff_shortDatagram :
    ∃ n s', handleRx n shortDatagram .init = .ok s' :=
  (handleRx_returns_iff (s := .init) fun _ hp => absurd hp List.not_mem_nil).1.mpr (by decide +kernel)

/-- An IPv4 header of 24 bytes. -/
def optionsFrame : Packet :=
  ethFrame (.replicate 6 0xFF) (.replicate 6 2) ethTypeIp (0x46 :: List.replicate 23 0)

theorem handleRx_panics_on_options : ¬∃ n s', handleRx n optionsFrame .init = .ok s' := by
  rintro ⟨n, s', hs'⟩
  cases n with
  | zero => cases hs'
  | succ n =>
      rw [handleRx, receive_panic .init (by decide +kernel)] at hs'
      cases hs'

end Stack

end PureOS.Net
