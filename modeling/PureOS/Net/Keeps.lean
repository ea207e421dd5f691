import PureOS.Net.Panic

set_option autoImplicit false

/-!
# Net: what the stack keeps (`net/eth.rs`)

The functions of the stack change it in few ways: the card sends something, an address is
learned, the connection moves, a poll is used up, and a datagram is delivered.  What survives
each of these survives every call.
-/

namespace PureOS.Net

open PureOS.Foundation

/-- The datagram in a frame that `handle_rx` hands to the handlers: the port that it takes for
the destination, and the payload. -/
def frameUdp (frame : Packet) : Option (Nat × Packet) :=
  let packet := frame.drop 14
  let data := ipData packet
  if 14 ≤ frame.length ∧ beAt 2 frame 12 = ethTypeIp ∧ Ipv4Header packet ∧ Ipv4Accepted packet ∧
      packet[9]? = some ipProtoUdp ∧ 8 ≤ data.length ∧ beAt 2 data 4 ≤ data.length then
    some (beAt 2 data 0, (data.take (beAt 2 data 4)).drop 8)
  else none

namespace Stack

/-- What every change of the stack keeps, as long as all frames are `ok`. -/
structure Stable (ok : Packet → Prop) (I : Stack → Prop) : Prop where
  sends : ∀ s sent, I s → I { s with sent := sent }
  learns : ∀ s arp, I s → I { s with arp := arp }
  moves : ∀ s tcp log, I s → I { s with tcp := tcp, log := log }
  polls : ∀ s p rest, I s → s.polls = p :: rest → I { s with polls := rest }
  polled : ∀ s bytes rest, I s → s.polls = .frame bytes :: rest → ok (bytes.take rxFrameSize)
  delivers : ∀ s frame handler payload src srcPort, I s → ok frame →
    frameUdp frame = some (handler.port, payload) → some handler ∈ s.udp.toList →
    I (s.deliver handler.callback payload src srcPort)

/-- `rx` keeps `I`. -/
def Keeps (ok : Packet → Prop) (I : Stack → Prop) (rx : Packet → Stack → Except Fault Stack) : Prop :=
  ∀ frame s s', I s → ok frame → rx frame s = .ok s' → I s'

section

variable {ok : Packet → Prop} {I : Stack → Prop} {rx : Packet → Stack → Except Fault Stack}
variable {n : Nat} {s s' : Stack}

theorem Stable.nicSend (hI : Stable ok I) (h : I s) (frame : Packet) : I (s.nicSend frame).2 := by
  rw [Stack.nicSend]
  split
  · exact h
  · exact hI.sends _ _ h

theorem Stable.sendEth (hI : Stable ok I) (h : I s) (dst : Mac) (ethertype : Nat) (payload : Packet) :
    I (s.sendEth dst ethertype payload).2 := by
  rw [Stack.sendEth]
  split
  · exact h
  · exact hI.nicSend h _

theorem Stable.handlePolled (hI : Stable ok I) (hrx : Keeps ok I rx) {bytes : Packet} {rest : List Poll}
    (h : I s) (hpolls : s.polls = .frame bytes :: rest)
    (hs : Stack.handlePolled rx bytes { s with polls := rest } = .ok s') : I s' := by
  have hrest := hI.polls _ _ _ h hpolls
  rw [Stack.handlePolled] at hs
  split at hs
  · exact hrx _ _ _ hrest (hI.polled _ _ _ h hpolls) hs
  · cases hs
    exact hrest

theorem Stable.waitArp (hI : Stable ok I) (hrx : Keeps ok I rx) {ip : Ip} {mac : Option Mac} (h : I s)
    (hs : Stack.waitArp rx ip n s = .ok (mac, s')) : I s' := by
  induction n generalizing s with
  | zero => cases hs
  | succ n ih =>
      rw [Stack.waitArp] at hs
      split at hs
      · cases hs
        exact h
      · rename_i hpolls
        cases hs
        exact hI.polls _ _ _ h hpolls
      · rename_i hpolls
        obtain ⟨s₁, hs₁, hs⟩ := bind_eq_ok hs
        have hhandled := hI.handlePolled hrx h hpolls hs₁
        split at hs
        · cases hs
          exact hhandled
        · exact ih hhandled hs

theorem Stable.arpTries (hI : Stable ok I) (hrx : Keeps ok I rx) {ip : Ip} {tries : Nat}
    {mac : Option Mac} (h : I s) (hs : Stack.arpTries rx n ip tries s = .ok (mac, s')) : I s' := by
  induction tries generalizing s with
  | zero =>
      cases hs
      exact h
  | succ tries ih =>
      obtain ⟨⟨mac₁, s₁⟩, hs₁, hs⟩ := bind_eq_ok hs
      have hwaited := hI.waitArp hrx (hI.sendEth h _ _ _) hs₁
      cases mac₁ with
      | some mac₁ =>
          cases hs
          exact hwaited
      | none => exact ih hwaited hs

theorem Stable.targetMac (hI : Stable ok I) (hrx : Keeps ok I rx) {dst : Ip} {mac : Option Mac}
    (h : I s) (hs : Stack.targetMac rx n dst s = .ok (mac, s')) : I s' := by
  rw [Stack.targetMac] at hs
  split at hs
  · cases hs
    exact h
  · rw [arpResolve] at hs
    split at hs
    · cases hs
      exact h
    · exact hI.arpTries hrx h hs

theorem Stable.sendIpv4 (hI : Stable ok I) (hrx : Keeps ok I rx) {dst : Ip} {proto : UInt8}
    {payload : Packet} {id : Nat} {sent : Bool} (h : I s)
    (hs : Stack.sendIpv4 rx n dst proto payload id s = .ok (sent, s')) : I s' := by
  rw [Stack.sendIpv4] at hs
  split at hs
  · cases hs
  · obtain ⟨⟨mac, s₁⟩, hs₁, hs⟩ := bind_eq_ok hs
    have htarget := hI.targetMac hrx h hs₁
    cases mac with
    | none =>
        cases hs
        exact htarget
    | some mac =>
        simp only at hs
        split at hs
        · cases hs
        · have hs' : s' = (s₁.nicSend _).2 := (congrArg Prod.snd (Except.ok.inj hs)).symm
          rw [hs']
          exact hI.nicSend htarget _

theorem Stable.sendTcpRaw (hI : Stable ok I) (hrx : Keeps ok I rx) {conn : TcpConn} {flags : UInt8}
    {payload segment : Packet} {sent : Bool} (h : I s)
    (hs : Stack.sendTcpRaw rx n conn flags payload s = .ok (segment, sent, s')) : I s' := by
  obtain ⟨raw, _, hs⟩ := bind_eq_ok hs
  obtain ⟨⟨sent₁, s₁⟩, hs₁, hs⟩ := bind_eq_ok hs
  cases hs
  exact hI.sendIpv4 hrx (hI.moves s s.tcp _ h) hs₁

theorem Stable.handleTcp (hI : Stable ok I) (hrx : Keeps ok I rx) {data : Packet} {src : Ip} (h : I s)
    (hs : Stack.handleTcp rx n data src s = .ok s') : I s' := by
  obtain ⟨⟨conn, answer⟩, _, hs⟩ := bind_eq_ok hs
  have hmoved := hI.moves s conn (s.log ++ [.segment s.tcp src data]) h
  cases answer with
  | false =>
      cases hs
      exact hmoved
  | true =>
      obtain ⟨⟨segment, sent, s₁⟩, hs₁, hs⟩ := bind_eq_ok hs
      cases hs
      exact hI.sendTcpRaw hrx hmoved hs₁

theorem udp_deliver (callback : UdpCallback) (payload : Packet) (src : Ip) (port : Nat) (s : Stack) :
    (s.deliver callback payload src port).udp = s.udp := by
  cases callback <;> rfl

theorem Stable.dispatch (hI : Stable ok I) {frame payload : Packet} {dstPort : Nat} {src : Ip}
    {srcPort : Nat} (hframe : ok frame) (hudp : frameUdp frame = some (dstPort, payload))
    {handlers : List (Option UdpHandler)} (h : I s) (hmem : ∀ handler ∈ handlers, handler ∈ s.udp.toList) :
    I (Stack.dispatch dstPort payload src srcPort handlers s) := by
  induction handlers generalizing s with
  | nil => exact h
  | cons handler handlers ih =>
      cases handler with
      | none => exact ih h fun handler' hin => hmem handler' (List.mem_cons_of_mem _ hin)
      | some handler =>
          rw [Stack.dispatch]
          split
          · rename_i hport
            refine ih ?_ ?_
            · refine hI.delivers s frame handler payload src srcPort h hframe ?_
                (hmem _ List.mem_cons_self)
              rw [hport]
              exact hudp
            · rw [udp_deliver]
              exact fun handler' hin => hmem handler' (List.mem_cons_of_mem _ hin)
          · exact ih h fun handler' hin => hmem handler' (List.mem_cons_of_mem _ hin)

/-- `handle_udp` delivers the datagram of its frame. -/
theorem Stable.handleUdp (hI : Stable ok I) {frame : Packet} {src : Ip} (hframe : ok frame)
    (hlong : 14 ≤ frame.length) (hip : beAt 2 frame 12 = ethTypeIp)
    (hheader : Ipv4Header (frame.drop 14)) (haccepted : Ipv4Accepted (frame.drop 14))
    (hproto : (frame.drop 14)[9]? = some ipProtoUdp) (h : I s)
    (hs : Stack.handleUdp (ipData (frame.drop 14)) src s = .ok s') : I s' := by
  rw [Stack.handleUdp] at hs
  split at hs
  · cases hs
    exact h
  · rename_i hlen
    rw [be_ok (by omega), be_ok (by omega), be_ok (by omega)] at hs
    simp only [bind_ok] at hs
    split at hs
    · cases hs
      exact h
    · rename_i hle
      obtain ⟨payload, hpayload, hs⟩ := bind_eq_ok hs
      have hcut : 8 ≤ beAt 2 (ipData (frame.drop 14)) 4 := by
        by_contra hshort
        rw [cut_panic (Or.inl (by omega))] at hpayload
        cases hpayload
      rw [cut_ok hcut (by omega)] at hpayload
      cases hpayload
      cases hs
      have hudp : frameUdp frame = some (beAt 2 (ipData (frame.drop 14)) 0,
          ((ipData (frame.drop 14)).take (beAt 2 (ipData (frame.drop 14)) 4)).drop 8) := by
        rw [frameUdp]
        exact if_pos ⟨hlong, hip, hheader, haccepted, hproto, by omega, by omega⟩
      exact hI.dispatch hframe hudp h fun _ hin => hin

theorem Stable.receive (hI : Stable ok I) (hrx : Keeps ok I rx) {frame : Packet} (h : I s)
    (hframe : ok frame) (hs : Stack.receive rx n frame s = .ok s') : I s' := by
  rw [Stack.receive] at hs
  split at hs
  · cases hs
    exact h
  rename_i hlen
  rw [be_ok (by omega), bind_ok, cut_ok (by omega) (Nat.le_refl _), bind_ok, List.take_length] at hs
  split at hs
  · rw [handleArp] at hs
    split at hs
    · cases hs
      exact h
    obtain ⟨op, _, hs⟩ := bind_eq_ok hs
    obtain ⟨srcIp, _, hs⟩ := bind_eq_ok hs
    obtain ⟨srcMac, _, hs⟩ := bind_eq_ok hs
    obtain ⟨targetIp, _, hs⟩ := bind_eq_ok hs
    simp only at hs
    split at hs
    · cases hs
      exact hI.sendEth (hI.learns _ _ h) _ _ _
    · cases hs
      exact hI.learns _ _ h
  split at hs
  · rename_i hip
    by_cases hheader : Ipv4Header (frame.drop 14)
    · rw [handleIpv4_header s hheader] at hs
      split at hs
      · cases hs
      split at hs
      · cases hs
        exact h
      rename_i haccepted
      split at hs
      · rename_i hproto
        split at hs
        · cases hs
        obtain ⟨src, _, hs⟩ := bind_eq_ok hs
        exact hI.handleUdp hframe (by omega) hip hheader (not_not.mp haccepted) hproto h hs
      split at hs
      · split at hs
        · cases hs
        obtain ⟨src, _, hs⟩ := bind_eq_ok hs
        exact hI.handleTcp hrx h hs
      · cases hs
        exact h
    · rw [handleIpv4_ignores s hheader] at hs
      cases hs
      exact h
  · cases hs
    exact h

/-- `handle_rx` keeps what is stable, with any frames coming in meanwhile. -/
theorem Stable.handleRx (hI : Stable ok I) (n : Nat) : Keeps ok I (Stack.handleRx n) := by
  induction n with
  | zero => exact fun _ _ _ _ _ hs => by cases hs
  | succ n ih => exact fun _ _ _ h hframe hs => hI.receive ih h hframe hs

theorem Stable.sendUdp (hI : Stable ok I) {dst : Ip} {dstPort srcPort : Nat} {payload : Packet}
    {sent : Bool} (h : I s) (hs : Stack.sendUdp n dst dstPort srcPort payload s = .ok (sent, s')) :
    I s' := by
  rw [Stack.sendUdp] at hs
  split at hs
  · cases hs
  · exact hI.sendIpv4 (hI.handleRx n) h hs

theorem Stable.tcpSend (hI : Stable ok I) {data : Packet} {sent : Bool} (h : I s)
    (hs : Stack.tcpSend n data s = .ok (sent, s')) : I s' := by
  rw [Stack.tcpSend] at hs
  split at hs
  · cases hs
    exact h
  · obtain ⟨⟨segment, sent₁, s₁⟩, hs₁, hs⟩ := bind_eq_ok hs
    have hsent := hI.sendTcpRaw (hI.handleRx n) h hs₁
    cases hs
    cases sent₁ with
    | false => exact hsent
    | true => exact hI.moves s₁ s₁.tcp _ hsent

theorem Stable.waitConnect (hI : Stable ok I) {fuel : Nat} {connected : Bool} (h : I s)
    (hs : Stack.waitConnect n fuel s = .ok (connected, s')) : I s' := by
  induction fuel generalizing s with
  | zero => cases hs
  | succ fuel ih =>
      rw [Stack.waitConnect] at hs
      split at hs
      · cases hs
        exact hI.moves s _ _ h
      · rename_i hpolls
        cases hs
        exact hI.moves _ _ _ (hI.polls _ _ _ h hpolls)
      · rename_i hpolls
        obtain ⟨s₁, hs₁, hs⟩ := bind_eq_ok hs
        have hhandled := hI.handlePolled (hI.handleRx n) h hpolls hs₁
        split at hs
        · cases hs
          exact hhandled
        · exact ih hhandled hs

theorem Stable.tcpConnect (hI : Stable ok I) {dst : Ip} {dstPort srcPort : Nat} {connected : Bool}
    (h : I s) (hs : Stack.tcpConnect n dst dstPort srcPort s = .ok (connected, s')) : I s' := by
  obtain ⟨⟨segment, sent, s₁⟩, hs₁, hs⟩ := bind_eq_ok hs
  exact hI.waitConnect (hI.sendTcpRaw (hI.handleRx n) (hI.moves s _ _ h) hs₁) hs

end

end Stack

end PureOS.Net
