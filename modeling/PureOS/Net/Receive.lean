import PureOS.Net.State

set_option autoImplicit false

/-!
# Net: sending and receiving (`net/eth.rs`)

Whoever sends may have to ask for an address first, and handles the frames that come
in meanwhile.  So the functions take the one that handles a frame, `rx`, and
`handleRx` closes the circle.  The bounds count the turns of the loops that wait and
the depth of the nesting.
-/

namespace PureOS.Net

open PureOS.Foundation

namespace Stack

section

variable (rx : Packet → Stack → Except Fault Stack) (n : Nat)

/-- `let n = nic::poll_rx(&mut buf); if n > 0 { handle_rx(&buf[..n]); }`. -/
def handlePolled (bytes : Packet) (s : Stack) : Except Fault Stack :=
  let frame := bytes.take rxFrameSize
  if frame.length > 0 then rx frame s else .ok s

/-- The loop of `arp_resolve` that waits for an answer.  Its time is over with the last poll. -/
def waitArp (ip : Ip) : Nat → Stack → Except Fault (Option Mac × Stack)
  | 0, _ => .error .fuel
  | n + 1, s =>
      match s.polls with
      | [] => .ok (none, s)
      | .late :: rest => .ok (none, { s with polls := rest })
      | .frame bytes :: rest => do
          let s ← handlePolled rx bytes { s with polls := rest }
          match arpCacheLookup s.arp ip with
          | some mac => return (some mac, s)
          | none => waitArp ip n s

/-- The requests of `arp_resolve`. -/
def arpTries (ip : Ip) : Nat → Stack → Except Fault (Option Mac × Stack)
  | 0, s => .ok (none, s)
  | tries + 1, s => do
      let (mac, s) ← waitArp rx ip n (s.arpRequest ip)
      match mac with
      | some mac => return (some mac, s)
      | none => arpTries ip tries s

/-- `arp_resolve`. -/
def arpResolve (ip : Ip) (s : Stack) : Except Fault (Option Mac × Stack) :=
  match arpCacheLookup s.arp ip with
  | some mac => .ok (some mac, s)
  | none => arpTries rx n ip 3 s

/-- The address that `send_ipv4` sends a packet to. -/
def targetMac (dst : Ip) (s : Stack) : Except Fault (Option Mac × Stack) :=
  if ipEq dst (.replicate 4 255) then .ok (some (.replicate 6 0xFF), s) else arpResolve rx n dst s

/-- `send_ipv4`: the packet is put together in 1514 bytes, and the frame in 1518. -/
def sendIpv4 (dst : Ip) (proto : UInt8) (payload : Packet) (id : Nat) (s : Stack) :
    Except Fault (Bool × Stack) :=
  let total := 20 + payload.length
  if total > 1514 then .error .panic
  else do
    let packet := ipv4Header s.ip dst proto total id ++ payload
    let (mac, s) ← targetMac rx n dst s
    match mac with
    | none => return (false, s)
    | some mac =>
        if 14 + total > 1518 then .error .panic
        else return s.nicSend (ethFrame mac s.mac ethTypeIp packet)

/-- `send_tcp_raw`. -/
def sendTcpRaw (conn : TcpConn) (flags : UInt8) (payload : Packet) (s : Stack) :
    Except Fault (Packet × Bool × Stack) := do
  let segment ← buildTcp conn.seq conn.ack flags payload conn.srcPort conn.dstPort
  let segment := withChecksum segment (tcpChecksum s.ip conn.dstIp segment)
  let s := { s with log := s.log ++ [.built conn segment] }
  let (sent, s) ← sendIpv4 rx n conn.dstIp ipProtoTcp segment 0 s
  return (segment, sent, s)

/-- `handle_tcp`. -/
def handleTcp (data : Packet) (src : Ip) (s : Stack) : Except Fault Stack := do
  let (conn, answer) ← s.tcp.onSegment data
  let s := { s with tcp := conn, log := s.log ++ [.segment s.tcp src data] }
  if answer then
    let (_, _, s) ← sendTcpRaw rx n conn tcpFlagAck [] s
    return s
  else return s

/-- The loop of `handle_udp` over the handlers. -/
def dispatch (dstPort : Nat) (payload : Packet) (src : Ip) (srcPort : Nat) :
    List (Option UdpHandler) → Stack → Stack
  | [], s => s
  | some h :: rest, s =>
      dispatch dstPort payload src srcPort rest
        (if h.port = dstPort then s.deliver h.callback payload src srcPort else s)
  | none :: rest, s => dispatch dstPort payload src srcPort rest s

/-- `handle_udp`. -/
def handleUdp (data : Packet) (src : Ip) (s : Stack) : Except Fault Stack :=
  if data.length < 8 then .ok s
  else do
    let srcPort ← be 2 data 2
    let dstPort ← be 2 data 0
    let len ← be 2 data 4
    if data.length < len then return s
    else
      let payload ← cut data 8 len
      return dispatch dstPort payload src srcPort s.udp.toList s

/-- `handle_ipv4`. -/
def handleIpv4 (packet : Packet) (s : Stack) : Except Fault Stack :=
  if packet.length < 20 then .ok s
  else do
    let first ← byte packet 0
    if first.toNat / 16 ≠ 4 then return s
    else
      let ihl := first.toNat % 16 * 4
      if ihl < 20 ∨ packet.length < ihl then return s
      else
        let csum ← be 2 packet 10
        let head ← array 20 packet 0
        let check ← cut ((head.toList.set 10 0).set 11 0) 0 ihl
        if ipChecksum check ≠ csum then return s
        else
          let totalLen ← be 2 packet 2
          if packet.length < totalLen then return s
          else
            let proto ← byte packet 9
            let src ← array 4 packet 12
            if proto = ipProtoUdp then
              let data ← cut packet ihl totalLen
              handleUdp data src s
            else if proto = ipProtoTcp then
              let data ← cut packet ihl totalLen
              handleTcp rx n data src s
            else return s

/-- `handle_arp`. -/
def handleArp (packet : Packet) (s : Stack) : Except Fault Stack :=
  if packet.length < 28 then .ok s
  else do
    let op ← be 2 packet 6
    let srcIp ← array 4 packet 14
    let srcMac ← array 6 packet 8
    let targetIp ← array 4 packet 24
    let s := { s with arp := arpCacheAdd s.arp srcIp srcMac }
    if op = arpRequestOp ∧ ipEq targetIp s.ip then return s.arpReply srcMac srcIp
    else return s

/-- `handle_rx`, with a function for the frames that come in while it sends. -/
def receive (frame : Packet) (s : Stack) : Except Fault Stack :=
  if frame.length < 14 then .ok s
  else do
    let ethertype ← be 2 frame 12
    let payload ← cut frame 14 frame.length
    if ethertype = ethTypeArp then handleArp payload s
    else if ethertype = ethTypeIp then handleIpv4 rx n payload s
    else return s

end

/-- `handle_rx`. -/
def handleRx : Nat → Packet → Stack → Except Fault Stack
  | 0, _, _ => .error .fuel
  | n + 1, frame, s => receive (handleRx n) n frame s

/-- `send_udp`: the datagram is put together in 1500 bytes. -/
def sendUdp (n : Nat) (dst : Ip) (dstPort srcPort : Nat) (payload : Packet) (s : Stack) :
    Except Fault (Bool × Stack) :=
  let len := 8 + payload.length
  if len > 1500 then .error .panic
  else
    sendIpv4 (handleRx n) n dst ipProtoUdp
      (toBE 2 srcPort ++ (toBE 2 dstPort ++ (toBE 2 len ++ ([0, 0] ++ payload)))) 0 s

/-- `tcp_send`. -/
def tcpSend (n : Nat) (data : Packet) (s : Stack) : Except Fault (Bool × Stack) :=
  if s.tcp.state ≠ .established then .ok (false, s)
  else do
    let (segment, sent, s) ← sendTcpRaw (handleRx n) n s.tcp (tcpFlagPsh ||| tcpFlagAck) data s
    return (true, if sent then { s with log := s.log ++ [.emitted segment] } else s)

/-- `TCP_CONN.state = TCP_CLOSED`, when `tcp_connect` has waited in vain. -/
def closeTcp (s : Stack) : Stack :=
  { s with tcp := { s.tcp with state := .closed }, log := s.log ++ [.closed] }

/-- The loop of `tcp_connect`. -/
def waitConnect (n : Nat) : Nat → Stack → Except Fault (Bool × Stack)
  | 0, _ => .error .fuel
  | fuel + 1, s =>
      match s.polls with
      | [] => .ok (false, s.closeTcp)
      | .late :: rest => .ok (false, { s with polls := rest }.closeTcp)
      | .frame bytes :: rest => do
          let s ← handlePolled (handleRx n) bytes { s with polls := rest }
          if s.tcp.state = .established then return (true, s) else waitConnect n fuel s

/-- `tcp_connect`. -/
def tcpConnect (n : Nat) (dst : Ip) (dstPort srcPort : Nat) (s : Stack) : Except Fault (Bool × Stack) := do
  let conn : TcpConn :=
    { state := .synSent, dstIp := dst, dstPort := dstPort, srcPort := srcPort, seq := 1000, ack := 0,
      rxbuf := [] }
  let s := { s with tcp := conn, log := s.log ++ [.connect conn] }
  let (_, _, s) ← sendTcpRaw (handleRx n) n conn tcpFlagSyn [] s
  waitConnect n n s

/-- What no callback changes no datagram changes. -/
theorem dispatch_keeps {β : Type} (f : Stack → β) {payload : Packet} {src : Ip} {srcPort : Nat}
    (hf : ∀ callback s, f (s.deliver callback payload src srcPort) = f s) (dstPort : Nat)
    (handlers : List (Option UdpHandler)) (s : Stack) :
    f (dispatch dstPort payload src srcPort handlers s) = f s := by
  induction handlers generalizing s with
  | nil => rfl
  | cons handler handlers ih =>
      cases handler with
      | none => exact ih s
      | some h =>
          rw [dispatch, ih]
          split
          · exact hf h.callback s
          · rfl

end Stack

end PureOS.Net
