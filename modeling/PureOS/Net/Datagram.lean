import PureOS.Net.Panic

set_option autoImplicit false

/-!
# Net: datagrams there and back (`net/eth.rs`)

`send_udp` puts a datagram into an IPv4 packet, and `handle_ipv4` takes it out again and
calls the handlers that it finds.  The calls are written down here one by one, so that they
can be compared with those that the datagram asks for.
-/

namespace PureOS.Net

open PureOS.Foundation

/-- The datagram that `send_udp` puts together. -/
def udpDatagram (srcPort dstPort : Nat) (payload : Packet) : Packet :=
  toBE 2 srcPort ++ (toBE 2 dstPort ++ (toBE 2 (8 + payload.length) ++ ([0, 0] ++ payload)))

/-- The IPv4 packet that `send_ipv4` makes of it. -/
def udpPacket (src dst : Ip) (srcPort dstPort : Nat) (payload : Packet) : Packet :=
  ipv4Header src dst ipProtoUdp (20 + (udpDatagram srcPort dstPort payload).length) 0 ++
    udpDatagram srcPort dstPort payload

/-- A call of a handler. -/
structure UdpCall where
  callback : UdpCallback
  payload : Packet
  src : Ip
  srcPort : Nat
  deriving DecidableEq

/-- What a call does. -/
def UdpCall.run (s : Stack) (c : UdpCall) : Stack := s.deliver c.callback c.payload c.src c.srcPort

/-- The calls of the handlers of a port, in the order of the table. -/
def callsFor (port : Nat) (payload : Packet) (src : Ip) (srcPort : Nat)
    (handlers : List (Option UdpHandler)) : List UdpCall :=
  handlers.filterMap fun handler => handler.bind fun h =>
    if h.port = port then some ⟨h.callback, payload, src, srcPort⟩ else none

/-- The calls that `handle_udp` makes. -/
def udpCalls (data : Packet) (src : Ip) (handlers : List (Option UdpHandler)) :
    Except Fault (List UdpCall) :=
  if data.length < 8 then .ok []
  else do
    let srcPort ← be 2 data 2
    let dstPort ← be 2 data 0
    let len ← be 2 data 4
    if data.length < len then return []
    else
      let payload ← cut data 8 len
      return callsFor dstPort payload src srcPort handlers

/-- The packet of a datagram passes the checks of `handle_ipv4`, and what is called is what
the datagram asks for: the handlers of its destination port with its payload and its sender. -/
structure Inverse (src dst : Ip) (srcPort dstPort : Nat) (payload : Packet)
    (handlers : List (Option UdpHandler)) : Prop where
  accepted : ∀ rx n s, Stack.handleIpv4 rx n (udpPacket src dst srcPort dstPort payload) s =
    Stack.handleUdp (udpDatagram srcPort dstPort payload) src s
  calls : udpCalls (udpDatagram srcPort dstPort payload) src handlers =
    .ok (callsFor dstPort payload src srcPort handlers)

section

variable {src dst : Ip} {srcPort dstPort port : Nat} {payload : Packet}
variable {handlers : List (Option UdpHandler)}

/-! ## Calls -/

/-- The loop of `handle_udp` makes the calls one after the other. -/
theorem dispatch_eq (dstPort : Nat) (payload : Packet) (src : Ip) (srcPort : Nat)
    (handlers : List (Option UdpHandler)) (s : Stack) :
    Stack.dispatch dstPort payload src srcPort handlers s =
      (callsFor dstPort payload src srcPort handlers).foldl UdpCall.run s := by
  induction handlers generalizing s with
  | nil => rfl
  | cons handler rest ih =>
      cases handler with
      | none => exact ih s
      | some h =>
          rw [Stack.dispatch, ih, callsFor, callsFor, List.filterMap_cons]
          by_cases hport : h.port = dstPort
          · simp only [Option.bind_some, hport, if_true, List.foldl_cons]
            rfl
          · simp only [Option.bind_some, hport, if_false]

/-- `handle_udp` does what its calls do. -/
theorem handleUdp_eq (data : Packet) (src : Ip) (s : Stack) :
    Stack.handleUdp data src s =
      (udpCalls data src s.udp.toList).map fun calls => calls.foldl UdpCall.run s := by
  rw [Stack.handleUdp, udpCalls]
  split
  · rfl
  · rename_i hlen
    rw [be_ok (by omega), be_ok (by omega), be_ok (by omega)]
    simp only [bind_ok]
    split
    · rfl
    · cases cut data 8 (beAt 2 data 4) with
      | error e => rfl
      | ok p =>
          change Except.ok (Stack.dispatch _ _ _ _ _ _) = _
          rw [dispatch_eq]
          rfl

/-- Calls for different ports, or with different senders, are the same only if there are
none. -/
theorem callsFor_eq_iff (h : srcPort ≠ dstPort) :
    callsFor srcPort payload src dstPort handlers = callsFor dstPort payload src srcPort handlers ↔
      ∀ handler, some handler ∈ handlers → handler.port ≠ srcPort ∧ handler.port ≠ dstPort := by
  have hnone : ∀ port port', callsFor port payload src port' handlers = [] ↔
      ∀ handler, some handler ∈ handlers → handler.port ≠ port := by
    intro port port'
    rw [callsFor, List.filterMap_eq_nil_iff]
    constructor
    · intro hall handler hmem heq
      have hcall := hall (some handler) hmem
      rw [Option.bind_some, if_pos heq] at hcall
      cases hcall
    · intro hall handler hmem
      cases handler with
      | none => rfl
      | some handler => rw [Option.bind_some, if_neg (hall handler hmem)]
  have hport : ∀ port port' call, call ∈ callsFor port payload src port' handlers →
      call.srcPort = port' := by
    intro port port' call hmem
    obtain ⟨handler, _, heq⟩ := List.mem_filterMap.mp hmem
    cases handler with
    | none => cases heq
    | some handler =>
        rw [Option.bind_some] at heq
        split at heq
        · cases heq
          rfl
        · cases heq
  constructor
  · intro heq
    have hleft : callsFor srcPort payload src dstPort handlers = [] := by
      cases hcalls : callsFor srcPort payload src dstPort handlers with
      | nil => rfl
      | cons call rest =>
          have hmem : call ∈ callsFor srcPort payload src dstPort handlers := by
            rw [hcalls]
            exact List.mem_cons_self
          have hsame := hport _ _ _ hmem
          rw [heq] at hmem
          exact absurd ((hport _ _ _ hmem).symm.trans hsame) h
    have hright := heq.symm.trans hleft
    exact fun handler hmem =>
      ⟨(hnone _ _).mp hleft handler hmem, (hnone _ _).mp hright handler hmem⟩
  · intro hall
    rw [(hnone _ _).mpr fun handler hmem => (hall handler hmem).1,
      (hnone _ _).mpr fun handler hmem => (hall handler hmem).2]

/-! ## The packet -/

/-- Two bytes, the high one first. -/
theorem toBE_two (v : Nat) : toBE 2 v = [UInt8.ofNat (v / 256), UInt8.ofNat v] := rfl

/-- The bytes of the packet, one by one up to the addresses. -/
theorem udpPacket_eq (src dst : Ip) (srcPort dstPort : Nat) (payload : Packet) :
    ∃ t₁ t₀ c₁ c₀, [t₁, t₀] = toBE 2 (20 + (udpDatagram srcPort dstPort payload).length) ∧
      [c₁, c₀] = toBE 2 (ipChecksum (ipv4Fields src dst ipProtoUdp
        (20 + (udpDatagram srcPort dstPort payload).length) 0 0)) ∧
      ipv4Fields src dst ipProtoUdp (20 + (udpDatagram srcPort dstPort payload).length) 0 0 =
        0x45 :: 0 :: t₁ :: t₀ :: 0 :: 0 :: 0x40 :: 0 :: 64 :: 17 :: 0 :: 0 ::
          (src.toList ++ dst.toList) ∧
      udpPacket src dst srcPort dstPort payload =
        0x45 :: 0 :: t₁ :: t₀ :: 0 :: 0 :: 0x40 :: 0 :: 64 :: 17 :: c₁ :: c₀ ::
          (src.toList ++ (dst.toList ++ udpDatagram srcPort dstPort payload)) := by
  refine ⟨_, _, _, _, rfl, rfl, rfl, ?_⟩
  rw [udpPacket, ipv4Header, ipv4Fields, ipv4Fields]
  simp only [toBE_two, List.cons_append, List.nil_append, List.append_assoc]
  rfl

theorem ipChecksum_lt (p : Packet) : ipChecksum p < 2 ^ 16 := by
  unfold ipChecksum
  dsimp only
  omega

theorem beAt_of_take {p : Packet} {i v : Nat} (h : (p.drop i).take 2 = toBE 2 v)
    (hv : v < 2 ^ 16) : beAt 2 p i = v := by
  rw [beAt, h, fromBE_toBE]
  exact Nat.mod_eq_of_lt hv

theorem length_udpDatagram (srcPort dstPort : Nat) (payload : Packet) :
    (udpDatagram srcPort dstPort payload).length = 8 + payload.length := by
  simp only [udpDatagram, toBE_two, List.length_append, List.length_cons, List.length_nil]
  omega

/-- `handle_ipv4` hands the datagram to `handle_udp`, with the address of the sender. -/
theorem handleIpv4_udpPacket (src dst : Ip) (srcPort dstPort : Nat) {payload : Packet}
    (hlen : payload.length ≤ 1472) (rx : Packet → Stack → Except Fault Stack) (n : Nat)
    (s : Stack) : Stack.handleIpv4 rx n (udpPacket src dst srcPort dstPort payload) s =
      Stack.handleUdp (udpDatagram srcPort dstPort payload) src s := by
  obtain ⟨t₁, t₀, c₁, c₀, htotal, hcsum, hfields, hpacket⟩ :=
    udpPacket_eq src dst srcPort dstPort payload
  have hdatagram := length_udpDatagram srcPort dstPort payload
  have hsrc : src.toList.length = 4 := src.size_toArray
  have hdst : dst.toList.length = 4 := dst.size_toArray
  have hlength : (udpPacket src dst srcPort dstPort payload).length = 28 + payload.length := by
    rw [hpacket]
    simp only [List.length_cons, List.length_append, hsrc, hdst, hdatagram]
    omega
  have hfirst : (udpPacket src dst srcPort dstPort payload)[0]? = some 0x45 := by rw [hpacket]; rfl
  have hproto : (udpPacket src dst srcPort dstPort payload)[9]? = some ipProtoUdp := by
    rw [hpacket]
    rfl
  have hihl : ipIhl (udpPacket src dst srcPort dstPort payload) = 20 := by
    rw [ipIhl, hfirst]
    rfl
  have hheader : Ipv4Header (udpPacket src dst srcPort dstPort payload) := by
    rw [Ipv4Header, hihl, hfirst, hlength]
    exact ⟨by omega, by decide, by omega, by omega⟩
  have hlow : beAt 2 (udpPacket src dst srcPort dstPort payload) 2 = 28 + payload.length := by
    refine beAt_of_take ?_ (by omega)
    rw [hpacket, ← show 20 + (8 + payload.length) = 28 + payload.length by omega, ← hdatagram]
    exact htotal
  have hsum : beAt 2 (udpPacket src dst srcPort dstPort payload) 10 =
      ipChecksum (ipv4Fields src dst ipProtoUdp
        (20 + (udpDatagram srcPort dstPort payload).length) 0 0) := by
    refine beAt_of_take ?_ (ipChecksum_lt _)
    rw [hpacket]
    exact hcsum
  have hcheck : ipCheck (udpPacket src dst srcPort dstPort payload) =
      ipv4Fields src dst ipProtoUdp
        (20 + (udpDatagram srcPort dstPort payload).length) 0 0 := by
    rw [hfields, ipCheck, hpacket]
    have htake : (src.toList ++ (dst.toList ++ udpDatagram srcPort dstPort payload)).take 8 =
        src.toList ++ dst.toList := by
      rw [← List.append_assoc, List.take_left' (by simp [hsrc, hdst])]
    change _ :: _ :: _ :: _ :: _ :: _ :: _ :: _ :: _ :: _ :: _ :: _ ::
      (src.toList ++ (dst.toList ++ udpDatagram srcPort dstPort payload)).take 8 = _
    rw [htake]
  have haccepted : Ipv4Accepted (udpPacket src dst srcPort dstPort payload) := by
    rw [Ipv4Accepted, hcheck, hsum, hlow, hlength]
    exact ⟨rfl, Nat.le_refl _⟩
  have hdata : ipData (udpPacket src dst srcPort dstPort payload) =
      udpDatagram srcPort dstPort payload := by
    rw [ipData, hlow, ← hlength, List.take_length, hpacket]
    change (src.toList ++ (dst.toList ++ udpDatagram srcPort dstPort payload)).drop 8 = _
    rw [← List.append_assoc, List.drop_left' (by simp [hsrc, hdst])]
  have haddr : array 4 (udpPacket src dst srcPort dstPort payload) 12 = .ok src := by
    rw [array_ok (by omega)]
    refine congrArg _ (Vector.ext fun i hi => ?_)
    have hget : (udpPacket src dst srcPort dstPort payload)[12 + i]? = some src[i] := by
      rw [hpacket, Nat.add_comm]
      change (src.toList ++ (dst.toList ++ udpDatagram srcPort dstPort payload))[i]? = _
      rw [List.getElem?_append_left (by omega), List.getElem?_eq_getElem (by omega)]
      rfl
    rw [Vector.getElem_ofFn]
    exact (List.getElem?_eq_some_iff.mp hget).2
  rw [Stack.handleIpv4_header s hheader, hihl, if_neg (Nat.lt_irrefl 20),
    if_neg (not_not.mpr haccepted), hproto, if_pos rfl, hlow, if_neg (by omega), haddr, bind_ok,
    hdata]

/-- `handle_udp` takes the ports the wrong way round. -/
theorem udpCalls_udpDatagram (src : Ip) {srcPort dstPort : Nat} (hsrc : srcPort < 2 ^ 16)
    (hdst : dstPort < 2 ^ 16) {payload : Packet} (hlen : payload.length ≤ 1472)
    (handlers : List (Option UdpHandler)) :
    udpCalls (udpDatagram srcPort dstPort payload) src handlers =
      .ok (callsFor srcPort payload src dstPort handlers) := by
  have hlength := length_udpDatagram srcPort dstPort payload
  have hsecond : beAt 2 (udpDatagram srcPort dstPort payload) 2 = dstPort := beAt_of_take rfl hdst
  have hfirst : beAt 2 (udpDatagram srcPort dstPort payload) 0 = srcPort := beAt_of_take rfl hsrc
  have hthird : beAt 2 (udpDatagram srcPort dstPort payload) 4 = 8 + payload.length :=
    beAt_of_take rfl (by omega)
  rw [udpCalls, if_neg (by omega), be_ok (by omega), be_ok (by omega), be_ok (by omega)]
  simp only [bind_ok]
  rw [hfirst, hsecond, hthird, if_neg (by omega), cut_ok (by omega) (by omega), bind_ok,
    ← hlength, List.take_length]
  rfl

/-- A datagram reaches the handlers that it is for, with its sender, exactly when its ports are
equal or neither of them has a handler. -/
theorem udp_inverse_iff (src dst : Ip) {srcPort dstPort : Nat} (hsrc : srcPort < 2 ^ 16)
    (hdst : dstPort < 2 ^ 16) {payload : Packet} (hlen : payload.length ≤ 1472)
    (handlers : List (Option UdpHandler)) :
    Inverse src dst srcPort dstPort payload handlers ↔
      srcPort = dstPort ∨ ∀ handler, some handler ∈ handlers →
        handler.port ≠ srcPort ∧ handler.port ≠ dstPort := by
  have hcalls := udpCalls_udpDatagram src hsrc hdst hlen handlers
  by_cases hports : srcPort = dstPort
  · subst hports
    exact iff_of_true ⟨handleIpv4_udpPacket src dst srcPort srcPort hlen, hcalls⟩ (Or.inl rfl)
  · rw [or_iff_right hports, ← @callsFor_eq_iff src srcPort dstPort payload handlers hports]
    constructor
    · intro h
      exact Except.ok.inj (hcalls.symm.trans h.calls)
    · intro heq
      exact ⟨handleIpv4_udpPacket src dst srcPort dstPort hlen, hcalls.trans (congrArg _ heq)⟩

/-- A datagram between two ports of the same number reaches its handler. -/
theorem udp_inverse_iff_equal_ports :
    Inverse (.replicate 4 10) (.replicate 4 20) 53 53 [1, 2, 3] [some ⟨53, .dns⟩, none] :=
  (udp_inverse_iff (.replicate 4 10) (.replicate 4 20) (by decide) (by decide) (by decide)
    [some ⟨53, .dns⟩, none]).mpr (Or.inl rfl)

/-- A datagram from port 1000 to port 53 does not reach the handler of port 53. -/
theorem not_udp_inverse :
    ¬∀ (src dst : Ip) (srcPort dstPort : Nat) (payload : Packet)
      (handlers : List (Option UdpHandler)), srcPort < 2 ^ 16 → dstPort < 2 ^ 16 →
      payload.length ≤ 1472 → Inverse src dst srcPort dstPort payload handlers := by
  intro h
  have hcalls := (h (.replicate 4 10) (.replicate 4 20) 1000 53 [1, 2, 3] [some ⟨53, .dns⟩]
    (by decide) (by decide) (by decide)).calls
  revert hcalls
  decide +kernel

/-- What `send_udp` hands to the card when it knows where to send: the packet in a frame. -/
theorem sendUdp_eq (n : Nat) (dst : Ip) (dstPort srcPort : Nat) {payload : Packet}
    (hlen : payload.length ≤ 1472) (s : Stack) :
    Stack.sendUdp n dst dstPort srcPort payload s =
      Stack.targetMac (Stack.handleRx n) n dst s >>= fun r =>
        match r.1 with
        | none => .ok (false, r.2)
        | some mac => .ok (r.2.nicSend
            (ethFrame mac r.2.mac ethTypeIp (udpPacket s.ip dst srcPort dstPort payload))) := by
  have hlength := length_udpDatagram srcPort dstPort payload
  rw [Stack.sendUdp, if_neg (by omega), Stack.sendIpv4]
  change (if 20 + (udpDatagram srcPort dstPort payload).length > 1514 then _ else _) = _
  rw [if_neg (by omega)]
  refine congrArg _ (funext fun r => ?_)
  obtain ⟨mac, s'⟩ := r
  cases mac with
  | none => rfl
  | some mac =>
      change (if 14 + (20 + (udpDatagram srcPort dstPort payload).length) > 1518 then _ else _) = _
      rw [if_neg (by omega)]
      rfl

end

end PureOS.Net
