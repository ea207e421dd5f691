import PureOS.Net.Packet

set_option autoImplicit false

/-!
# Net: the state of the network stack (`net/eth.rs`, `net/mod.rs`)

The tables of the stack, its one TCP connection, what the card has sent, and what
the card will hand out: the frames that the polls to come find.  `log` is not in the
source: it keeps what happened to the connection, in order.  A wait of the kernel ends with a frame
or when the tick count has moved on; that it does move on is not modelled, so a wait is taken to
end.
-/

namespace PureOS.Net

open PureOS.Foundation

/-- `MAX_ARP`. -/
abbrev maxArp : Nat := 16
/-- `MAX_UDP_HANDLERS`. -/
abbrev maxUdpHandlers : Nat := 4
/-- The length of `rxbuf`. -/
abbrev rxbufSize : Nat := 4096
/-- `TX_BUF_SIZE`. -/
abbrev txBufSize : Nat := 1792
/-- The length of the buffer that a frame is polled into. -/
abbrev rxFrameSize : Nat := 1518

/-- `ArpEntry`. -/
structure ArpEntry where
  ip : Ip
  mac : Mac
  valid : Bool
  deriving DecidableEq

/-- The cache of addresses. -/
abbrev ArpCache := Vector ArpEntry maxArp

/-- `arp_cache_add`. -/
def arpCacheAdd (cache : ArpCache) (ip : Ip) (mac : Mac) : ArpCache :=
  match (List.finRange maxArp).find? fun i => cache[i].valid && ipEq cache[i].ip ip with
  | some i => cache.set i { cache[i] with mac := mac }
  | none =>
      match (List.finRange maxArp).find? fun i => !cache[i].valid with
      | some i => cache.set i { ip := ip, mac := mac, valid := true }
      -- The cache is full: its first entry goes, and the others move up.
      | none => Vector.ofFn fun i =>
          if h : i.val + 1 < maxArp then cache[i.val + 1] else { ip := ip, mac := mac, valid := true }

/-- `arp_cache_lookup`. -/
def arpCacheLookup (cache : ArpCache) (ip : Ip) : Option Mac :=
  ((List.finRange maxArp).find? fun i => cache[i].valid && ipEq cache[i].ip ip).map
    fun i => cache[i].mac

/-- `UdpCallback`: the resolver's own, or one of a service outside. -/
inductive UdpCallback where
  | dns
  | service (id : Nat)
  deriving DecidableEq

/-- `UdpHandler`. -/
structure UdpHandler where
  port : Nat
  callback : UdpCallback
  deriving DecidableEq

/-- The states of the connection. -/
inductive TcpState where
  | closed | synSent | established | finWait
  deriving DecidableEq

/-- `TcpConn`.  `rxbuf` is the part of the buffer that is in use, so `rxlen` is its length. -/
structure TcpConn where
  state : TcpState
  dstIp : Ip
  dstPort : Nat
  srcPort : Nat
  seq : Nat
  ack : Nat
  rxbuf : Packet
  deriving DecidableEq

/-- What happens to the connection. -/
inductive Event where
  /-- A segment from an address reaches `handle_tcp`. -/
  | segment (conn : TcpConn) (src : Ip) (data : Packet)
  /-- `send_tcp_raw` builds a segment. -/
  | built (conn : TcpConn) (segment : Packet)
  /-- The card has sent the segment of a `tcp_send`. -/
  | emitted (segment : Packet)
  /-- `tcp_read_data` is called with room for so many bytes. -/
  | read (conn : TcpConn) (room : Nat)
  /-- `tcp_connect` starts a new connection. -/
  | connect (conn : TcpConn)
  /-- `tcp_connect` has waited in vain. -/
  | closed

/-- What a turn of a loop that waits for the card finds. -/
inductive Poll where
  /-- The time is over. -/
  | late
  /-- A frame, or none when it is empty. -/
  | frame (bytes : Packet)

/-- The network stack. -/
structure Stack where
  /-- `OUR_MAC`. -/
  mac : Mac
  /-- `OUR_IP`. -/
  ip : Ip
  /-- `ARP_CACHE`. -/
  arp : ArpCache
  /-- `UDP_HANDLERS`. -/
  udp : Vector (Option UdpHandler) maxUdpHandlers
  /-- `DNS_RESP[..DNS_LEN]`. -/
  dnsResp : Packet
  /-- The datagrams that went to other services. -/
  delivered : List (Nat × Packet × Ip × Nat)
  /-- `TCP_CONN`. -/
  tcp : TcpConn
  /-- `DMA.initialized`. -/
  online : Bool
  /-- The frames that the card has sent. -/
  sent : List Packet
  /-- What the polls to come find.  When this is used up, every wait is over: in the kernel the
  tick count ends it, and nothing else does. -/
  polls : List Poll
  log : List Event

namespace Stack

/-- The stack before the card is set up. -/
def init : Stack where
  mac := .replicate 6 0
  ip := .replicate 4 0
  arp := .replicate maxArp { ip := .replicate 4 0, mac := .replicate 6 0, valid := false }
  udp := .replicate maxUdpHandlers none
  dnsResp := []
  delivered := []
  tcp :=
    { state := .closed, dstIp := .replicate 4 0, dstPort := 0, srcPort := 0, seq := 0, ack := 0,
      rxbuf := [] }
  online := false
  sent := []
  polls := []
  log := []

/-- `nic::send`. -/
def nicSend (frame : Packet) (s : Stack) : Bool × Stack :=
  if !s.online ∨ frame.length > txBufSize then (false, s)
  else (true, { s with sent := s.sent ++ [frame] })

/-- `send_eth`. -/
def sendEth (dst : Mac) (ethertype : Nat) (payload : Packet) (s : Stack) : Bool × Stack :=
  if 14 + payload.length > 1514 then (false, s)
  else s.nicSend (ethFrame dst s.mac ethertype payload)

/-- `send_eth_broadcast`. -/
def sendEthBroadcast (ethertype : Nat) (payload : Packet) (s : Stack) : Bool × Stack :=
  s.sendEth (.replicate 6 0xFF) ethertype payload

/-- `arp_request`. -/
def arpRequest (target : Ip) (s : Stack) : Stack :=
  (s.sendEthBroadcast ethTypeArp (arpPacket arpRequestOp s.mac s.ip (.replicate 6 0) target)).2

/-- `arp_reply`. -/
def arpReply (targetMac : Mac) (target : Ip) (s : Stack) : Stack :=
  (s.sendEth targetMac ethTypeArp (arpPacket arpReplyOp s.mac s.ip targetMac target)).2

/-- `udp_listen`. -/
def udpListen (port : Nat) (callback : UdpCallback) (s : Stack) : Bool × Stack :=
  match (List.finRange maxUdpHandlers).find? fun i => s.udp[i].isNone with
  | some i => (true, { s with udp := s.udp.set i (some { port := port, callback := callback }) })
  | none => (false, s)

/-- A call of a callback; `dns_callback` keeps the first 512 bytes. -/
def deliver (callback : UdpCallback) (payload : Packet) (src : Ip) (srcPort : Nat) (s : Stack) : Stack :=
  match callback with
  | .dns => { s with dnsResp := payload.take 512 }
  | .service id => { s with delivered := s.delivered ++ [(id, payload, src, srcPort)] }

/-- `tcp_read_data`: what does not fit into `room` bytes is dropped. -/
def tcpReadData (room : Nat) (s : Stack) : Packet × Stack :=
  (s.tcp.rxbuf.take room,
    { s with tcp := { s.tcp with rxbuf := [] }, log := s.log ++ [.read s.tcp room] })

end Stack

/-- What follows the header of a segment. -/
def tcpPayload (data : Packet) (hdrLen : Nat) : Except Fault Packet :=
  if data.length > hdrLen then cut data hdrLen data.length else .ok []

/-- `handle_tcp` up to the acknowledgement: the connection after a segment, and whether an
acknowledgement is sent. -/
def TcpConn.onSegment (conn : TcpConn) (data : Packet) : Except Fault (TcpConn × Bool) :=
  if data.length < 20 then .ok (conn, false)
  else do
    let seq ← be 4 data 4
    let ack ← be 4 data 8
    let flags ← byte data 13
    let off ← byte data 12
    let hdrLen := off.toNat / 16 * 4
    let payload ← tcpPayload data hdrLen
    if conn.state = .synSent ∧ flags &&& tcpFlagSyn ≠ 0 ∧ flags &&& tcpFlagAck ≠ 0 then
      return ({ conn with state := .established, ack := (seq + 1) % 2 ^ 32, seq := ack }, true)
    else if conn.state = .established ∧ flags &&& tcpFlagAck ≠ 0 then
      if payload ≠ [] then
        let n := min payload.length (rxbufSize - conn.rxbuf.length)
        return ({ conn with
          rxbuf := conn.rxbuf ++ payload.take n
          ack := (seq + payload.length) % 2 ^ 32 }, true)
      else if flags &&& tcpFlagFin ≠ 0 then
        return ({ conn with state := .finWait, ack := (seq + 1) % 2 ^ 32 }, true)
      else return (conn, false)
    else return (conn, false)

end PureOS.Net
